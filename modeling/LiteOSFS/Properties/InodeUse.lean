import LiteOSFS.Properties.LinkCounts

/-! # The inode bitmap and the name space

The inodes in use are the root and those that entries within reach of it refer to, as long
as a removal frees no inode with another entry, and a move takes out no entry without which
its inode is lost.
-/
namespace LiteOSFS
open Memory CString Ownership EntryGraph Transition

/-- The inodes in use are those of the name space, and their records are in order. -/
structure BitmapAgrees (m : Mem) : Prop where
  marks : ∀ i < 256, inodeUsed m i = true ↔ i = 0 ∨ ∃ d name, Reached (entryAt m) 0 d ∧ Edge (entryAt m) d name i
  records : ∀ i < 256, inodeUsed m i = true → (inodeAt m i).inodeNumber.toNat = i ∧
    ((inodeAt m i).fileType = typeDirectory ∨ (inodeAt m i).fileType = typeRegular)

/-- Without the first entry whose name begins with `name`, its inode is still within reach of the root. -/
def KeepsReached (E : Entries ℕ ℕ CStr) (d : ℕ) (name : CStr) : Prop :=
  ∀ k b j, Names.FirstPrefix E d name k → E d k = some (b,j) → Reached (update E d k none) 0 j

/-- Calls that keep the bitmap: a removal that frees an inode frees that of the only entry for it, which the search
for the beginning of its name finds; a move takes no inode without making a directory, and the inode whose entry it
takes out is still reached. -/
def BitmapKept (s : F19FS) : Call → Prop
  | .remove path => ∀ p ∈ path, ∀ i, RemoveFinds s.image p.chars i →
      ((s.inode i).fileType = typeRegular → ¬ (s.inode i).linkCount > 1) →
      FirstOfName s.image (parentOf s.image p.chars) (basename p.chars) i ∧
      ∀ e a, Edge (entryAt s.image) e a i → e = parentOf s.image p.chars ∧ a = basename p.chars
  | .move src dst _ => ∀ p ∈ src, ∀ q ∈ dst, ¬ MoveTakes s.image p.chars q.chars ∧
      (MoveFinds s.image p.chars q.chars →
        KeepsReached (entryAt s.image) (parentOf s.image p.chars) (basename p.chars)) ∧
      (MoveMakes s.image p.chars q.chars → KeepsReached ((namesOf s.image).apply (moveDirectory s.image q.chars)).entries
        (parentOf s.image p.chars) (basename p.chars))
  | _ => True

namespace Names

/-- The changes that keep the inodes in use those within reach. -/
def RootedOk (n : Names) : Change → Prop
  | .take _ => False
  | .unlink d k i => ∀ e j, (∃ a, n.entries e j = some (a,i)) ↔ e = d ∧ j = k
  | .drop d k => ∀ a i, n.entries d k = some (a,i) → Reached (update n.entries d k none) 0 i
  | _ => True

/-- Inodes in use are within reach of the root, entries refer to inodes in use, and those have sound records. -/
structure Rooted (n : Names) : Prop where
  placed : n.Placed
  root : (n.record 0).used = true
  reached : ∀ i, (n.record i).used = true → Reached n.entries 0 i
  used : ∀ d k a i, n.entries d k = some (a,i) → (n.record i).used = true
  sound : ∀ i, (n.record i).used = true → (n.record i).number.toNat = i ∧
    ((n.record i).kind = typeDirectory ∨ (n.record i).kind = typeRegular)

section Rooted
variable {n : Names} {d k c i : ℕ} {name : CStr} {kind : UInt8}

/-- A slot is filled, with an inode in use. -/
theorem Rooted.fill (h : n.Rooted) (hroom : n.Room d k name) (hi : i < 256) (hu : (n.record i).used = true) :
    (n.setEntry d k (some (name,i))).Rooted := by
  refine ⟨h.placed.fill hroom hi,h.root,fun j hj => (h.reached j hj).update_some hroom.vacant,fun e j a i' he => ?_,h.sound⟩
  rw [setEntry_entries] at he
  by_cases hc : e = d ∧ j = k
  · rw [hc.1, hc.2, update_self] at he
    cases he
    exact hu
  · rw [update_of_ne hc] at he
    exact h.used e j a i' he

/-- Only the link count of a record changes. -/
theorem Rooted.setLinks (h : n.Rooted) (i : ℕ) (links : UInt64) : (n.setRecord i { n.record i with links := links }).Rooted := by
  have hkeep : ∀ j, ((n.setRecord i { n.record i with links := links }).record j).used = (n.record j).used ∧
      ((n.setRecord i { n.record i with links := links }).record j).kind = (n.record j).kind ∧
      ((n.setRecord i { n.record i with links := links }).record j).number = (n.record j).number := by
    intro j
    rw [setRecord_eq]
    split_ifs with hji
    · rw [hji]
      exact ⟨rfl,rfl,rfl⟩
    · exact ⟨rfl,rfl,rfl⟩
  refine ⟨h.placed.setRecord (fun ⟨a,e,he⟩ => ⟨(h.placed.of_edge he).1,(h.placed.of_edge he).2.1⟩),?_,fun j hj => ?_,
    fun e j a i' he => ?_,fun j hj => ?_⟩
  · rw [(hkeep 0).1]
    exact h.root
  · rw [(hkeep j).1] at hj
    exact h.reached j hj
  · rw [(hkeep i').1]
    exact h.used e j a i' he
  · rw [(hkeep j).1] at hj
    rw [(hkeep j).2.1, (hkeep j).2.2]
    exact h.sound j hj

theorem Rooted.create (h : n.Rooted) (he : n.Enabled (.create d k name c kind)) :
    (n.apply (.create d k name c kind)).Rooted := by
  have hplaced := h.placed.apply he
  obtain _ | ⟨hroom,hc,hfree,hkind⟩ := he
  have hother : ∀ i, (n.record i).used = true → i ≠ c := by
    rintro i hu rfl
    rw [hfree] at hu
    cases hu
  refine ⟨hplaced,?_,fun i hu => ?_,fun e j a i hr => ?_,fun i hu => ?_⟩
  · simp only [Names.apply, setRecord_eq, if_neg (Ne.symm (hother 0 h.root).symm)]
    exact h.root
  · simp only [Names.apply, setRecord_eq, setRecord_entries, setEntry_entries] at hu ⊢
    split_ifs at hu with hic
    · rw [hic]
      exact ((h.reached d hroom.dirUsed).update_some hroom.vacant).edge ⟨k,update_self⟩
    · exact (h.reached i hu).update_some hroom.vacant
  · simp only [Names.apply, setRecord_eq, setRecord_entries, setEntry_entries] at hr ⊢
    by_cases hslot : e = d ∧ j = k
    · rw [hslot.1, hslot.2, update_self] at hr
      cases hr
      rw [if_pos rfl]
    · rw [update_of_ne hslot] at hr
      have hu := h.used e j a i hr
      rw [if_neg (hother i hu)]
      exact hu
  · simp only [Names.apply, setRecord_eq] at hu ⊢
    split_ifs at hu ⊢ with hic
    · refine ⟨?_,hkind⟩
      rw [hic, UInt64.toNat_ofNat', Nat.mod_eq_of_lt (by omega)]
    · exact h.sound i hu

theorem Rooted.link (h : n.Rooted) (he : n.Enabled (.link d k name i)) : (n.apply (.link d k name i)).Rooted := by
  obtain _ | _ | ⟨hroom,hedge,_⟩ := he
  obtain ⟨j,hj⟩ := hedge
  have hfill := h.fill hroom (h.placed.target _ _ _ _ hj) (h.used _ _ _ _ hj)
  rw [Names.apply]
  split_ifs
  · exact hfill
  · exact hfill.setLinks i _

theorem Rooted.unlink (h : n.Rooted) (he : n.Enabled (.unlink d k i))
    (hslot : ∀ e j, (∃ a, n.entries e j = some (a,i)) ↔ e = d ∧ j = k) : (n.apply (.unlink d k i)).Rooted := by
  have hplaced := h.placed.apply he
  obtain _ | _ | _ | _ | ⟨_,_,h0,_,hno⟩ := he
  obtain ⟨a,ha⟩ := (hslot d k).mpr ⟨rfl,rfl⟩
  have hother : ∀ j, ((n.apply (.unlink d k i)).record j).used = true → j ≠ i ∧ (n.record j).used = true := by
    intro j hu
    have hji : j ≠ i := by
      rintro rfl
      rw [Names.apply, setRecord_self] at hu
      cases hu
    rw [Names.apply, setRecord_of_ne hji] at hu
    exact ⟨hji,hu⟩
  refine ⟨hplaced,?_,fun j hu => ?_,fun e j b i' hr => ?_,fun j hu => ?_⟩
  · simp only [Names.apply, setRecord_eq, if_neg (Ne.symm h0)]
    exact h.root
  · obtain ⟨hji,hu⟩ := hother j hu
    exact ((h.reached j hu).update_none ha (Or.inr hno)).resolve_left hji
  · simp only [Names.apply, setRecord_eq, setRecord_entries, setEntry_entries] at hr ⊢
    by_cases hc : e = d ∧ j = k
    · rw [hc.1, hc.2, update_self] at hr
      cases hr
    · rw [update_of_ne hc] at hr
      have hi : i' ≠ i := by
        rintro rfl
        exact hc ((hslot e j).mp ⟨b,hr⟩)
      rw [if_neg hi]
      exact h.used e j b i' hr
  · obtain ⟨hji,hu⟩ := hother j hu
    rw [Names.apply, setRecord_of_ne hji]
    exact h.sound j hu

theorem Rooted.drop (h : n.Rooted) (he : n.Enabled (.drop d k))
    (hkeep : ∀ a i, n.entries d k = some (a,i) → Reached (update n.entries d k none) 0 i) : (n.apply (.drop d k)).Rooted := by
  have hplaced := h.placed.apply he
  obtain _ | _ | _ | _ | _ | ⟨_,hfirst⟩ := he
  obtain ⟨a,i,ha,_⟩ := hfirst.1
  refine ⟨hplaced,h.root,fun j hu => ?_,fun e j b i' hr => ?_,h.sound⟩
  · rcases (h.reached j hu).update_none ha (Or.inl (hkeep a i ha)) with rfl | hr
    · exact hkeep a j ha
    · exact hr
  · have hr : update n.entries d k none e j = some (b,i') := hr
    by_cases hc : e = d ∧ j = k
    · rw [hc.1, hc.2, update_self] at hr
      cases hr
    · rw [update_of_ne hc] at hr
      exact h.used e j b i' hr

theorem Rooted.apply {ch : Change} (h : n.Rooted) (he : n.Enabled ch) (hok : n.RootedOk ch) : (n.apply ch).Rooted := by
  cases ch with
  | take => exact absurd hok id
  | create => exact h.create he
  | link => exact h.link he
  | lower i => exact h.setLinks i _
  | unlink => exact h.unlink he hok
  | drop => exact h.drop he hok

/-- Paths lead to inodes in use only. -/
theorem Rooted.used_of_reached (h : n.Rooted) (hr : Reached n.entries 0 i) : (n.record i).used = true := by
  obtain ⟨ns,hp⟩ := hr
  refine hp.induct (P := fun i => (n.record i).used = true) h.root ?_
  rintro d a e _ ⟨k,he⟩
  exact h.used d k a e he

end Rooted

end Names

section Runs
variable {s : F19FS} {c : Call} {ret : ℤ} {l : List Change}

theorem rooted_fsFormat : (namesOf fsFormat.image).Rooted := by
  have hrec : ∀ i, (namesOf fsFormat.image).record i = if i = 0 then ⟨true,typeDirectory,0,1⟩ else Record.blank :=
    recordOf_fsFormat
  have hroot : ∀ i, ((namesOf fsFormat.image).record i).used = true → i = 0 := by
    intro i hu
    by_contra h0
    rw [hrec, if_neg h0] at hu
    cases hu
  refine ⟨tidy_fsFormat.placed,by rw [hrec, if_pos rfl],fun i hu => ?_,fun d k a i he => ?_,fun i hu => ?_⟩
  · rw [hroot i hu]
    exact Reached.self _ 0
  · have he : entryAt fsFormat.image d k = some (a,i) := he
    rw [entryAt_fsFormat] at he
    cases he
  · rw [hroot i hu, hrec, if_pos rfl]
    exact ⟨rfl,Or.inl rfl⟩

/-- The calls that keep the bitmap make changes that do. -/
theorem BitmapKept.along (ht : TidyImage s.image) (hg : BitmapKept s c) (hl : CallChanges s.image c ret l) :
    Names.Along Names.RootedOk (namesOf s.image) l := by
  cases hl with
  | refused | other => trivial
  | create | lower | link => exact ⟨trivial,trivial⟩
  | @unlink p i k hfinds hlinks hedge hfirst =>
    obtain ⟨hname,honly⟩ := hg p rfl i hfinds hlinks
    have hk := hname.slot hedge hfirst
    refine ⟨fun e j => ?_,trivial⟩
    rw [namesOf_entries]
    constructor
    · rintro ⟨a,he⟩
      obtain ⟨rfl,rfl⟩ := honly e a ⟨j,he⟩
      exact ⟨rfl,ht.distinct _ _ _ _ _ _ he hk⟩
    · rintro ⟨rfl,rfl⟩
      exact ⟨_,hk⟩
  | @take p q junk ret c htakes => exact absurd htakes (hg p rfl q rfl).1
  | @drop p q junk k hfinds hfirst =>
    obtain ⟨_,hkeep,_⟩ := hg p rfl q rfl
    refine ⟨fun a i he => ?_,trivial⟩
    rw [namesOf_entries] at he ⊢
    exact hkeep hfinds k a i hfirst he
  | @replace p q junk k hmakes hfirst =>
    obtain ⟨_,_,hkeep⟩ := hg p rfl q rfl
    exact ⟨trivial,fun a i he => hkeep hmakes k a i hfirst he,trivial⟩

end Runs

/-- In runs of such calls the inodes in use are those of the name space. -/
theorem inode_bitmap {s : F19FS} (h : Reach step (fun s c => Tidy s c ∧ BitmapKept s c) fsFormat s) :
    BitmapAgrees s.image := by
  obtain ⟨_,hn⟩ := names_invariant (I := Names.Rooted) rooted_fsFormat (fun ht _ hg hl => hg.along ht hl)
    (fun n ch hI hok => hI.apply hok.1 hok.2) h
  refine ⟨fun i hi => ?_,fun i hi hu => ?_⟩
  · rw [← record_used hi]
    constructor
    · intro hu
      obtain ⟨ns,hp⟩ := hn.reached i hu
      rcases List.eq_nil_or_concat ns with rfl | ⟨ns,a,rfl⟩
      · exact Or.inl (path_nil.mp hp).symm
      · rw [List.concat_eq_append] at hp
        obtain ⟨d,hd,he⟩ := path_concat.mp hp
        exact Or.inr ⟨d,a,⟨ns,hd⟩,he⟩
    · rintro (rfl | ⟨d,a,hd,he⟩)
      · exact hn.root
      · exact hn.used_of_reached (hd.edge he)
  · have hs := hn.sound i ((record_used hi).trans hu)
    have hrec : (namesOf s.image).record i = _ := recordOf_lt hi
    rwa [hrec] at hs

theorem bitmapKept_of_plain {s : F19FS} {c : Call} (h : plainTidy s c = true) : BitmapKept s c := by
  have hp := (Bool.and_eq_true_iff.mp h).1
  cases c with
  | remove | move => cases hp
  | _ => trivial

theorem inode_bitmap_created : ∃ s, run step fsFormat [.create (pathArg ['/','d']) .directory,
      .create (pathArg ['/','d','/','a']) .regular] = some s ∧ BitmapAgrees s.image ∧ inodeUsed s.image 2 = true := by
  have hrun : (run (checked plainTidy step) fsFormat [.create (pathArg ['/','d']) .directory,
      .create (pathArg ['/','d','/','a']) .regular]).map (fun s => inodeUsed s.image 2) = some true := by
    decide +kernel
  obtain ⟨s,hs,hu⟩ := Option.map_eq_some_iff.mp hrun
  have hreach : Reach step (fun s c => Tidy s c ∧ BitmapKept s c) fsFormat s :=
    reach_of_checked_run (fun s c hc => ⟨tidy_of_plainTidy s c hc,bitmapKept_of_plain hc⟩) hs
  exact ⟨s,run_of_checked hs,inode_bitmap hreach,hu⟩

/-- After the removal of `/a`, which took out the entry of `/ab`, its own entry refers to a free inode. -/
theorem inode_bitmap_fails : ¬ ∀ s, Reach step (fun _ _ => True) fsFormat s → BitmapAgrees s.image := by
  intro hall
  have hrun : (run step fsFormat [.create (some fileAb) .regular,.create (some fileA) .regular,.remove (some fileA)]).map
      (fun s => decide (entryAt s.image 0 1 = some (basename fileA.chars,2)) && decide (inodeUsed s.image 2 = false)) =
      some true := by
    decide +kernel
  obtain ⟨s,hs,hf⟩ := Option.map_eq_some_iff.mp hrun
  simp only [Bool.and_eq_true, decide_eq_true_eq] at hf
  obtain ⟨he,hfree⟩ := hf
  have hu := ((hall s (reach_of_run hs)).marks 2 (by decide)).mpr (Or.inr ⟨0,_,Reached.self _ 0,1,he⟩)
  rw [hfree] at hu
  cases hu

end LiteOSFS
