import LiteOSFS.Properties.RemoveExact

/-! # Link counts and entries

The link count of a record agrees with the number of entries for its inode as long as no
link goes from a directory to itself, no entry is moved, and only inodes with one link are
removed, by a name that the search for its beginning finds first.
-/
namespace LiteOSFS
open Memory CString Ownership EntryGraph Transition

/-- The entries of all directories. -/
def slots : Finset (ℕ × ℕ) := grid 256 31

/-- The number of live entries for an inode. -/
def entriesTo (m : Mem) (i : ℕ) : ℕ := targets (entryAt m) slots i

/-- Every inode in use but the root has as many links as entries. -/
def CountsAgree (m : Mem) : Prop :=
  ∀ i < 256, i ≠ 0 → inodeUsed m i = true → (inodeAt m i).linkCount.toNat = entriesTo m i

/-- An inode goes out of use only by a removal under the name of its one entry. -/
def FreesLast (m : Mem) (c : Call) (m' : Mem) : Prop :=
  ∀ i < 256, inodeUsed m i = true → inodeUsed m' i = false →
    (∃ p, c = .remove (some p) ∧ Edge (entryAt m) (parentOf m p.chars) (basename p.chars) i) ∧
    entriesTo m i = 1 ∧ entriesTo m' i = 0

/-- Calls that keep the counts: no link of a directory into itself, no removal of an inode with more links or by a
name that is not the first of its beginning, and no move that takes out an entry. -/
def CountsKept (s : F19FS) : Call → Prop
  | .link src dst => ∀ p ∈ src, ∀ q ∈ dst, LinkChecked s.image p.chars q.chars →
      getFileInodeID s.image (parentOf s.image p.chars) (basename p.chars) ≠ parentOf s.image q.chars
  | .remove path => ∀ p ∈ path, ∀ i, RemoveFinds s.image p.chars i → (s.inode i).linkCount ≤ 1 ∧
      FirstOfName s.image (parentOf s.image p.chars) (basename p.chars) i
  | .move src dst _ => ∀ p ∈ src, ∀ q ∈ dst, ¬ MoveFinds s.image p.chars q.chars ∧ ¬ MoveMakes s.image p.chars q.chars
  | _ => True

namespace Names

/-- The changes that keep the counts. -/
def CountOk (n : Names) : Change → Prop
  | .link d _ _ i => i ≠ d
  | .lower _ => False
  | .unlink d k i => (n.record i).links ≤ 1 ∧ ∃ a, n.entries d k = some (a,i)
  | .drop _ _ => False
  | _ => True

/-- Entries refer to inodes in use, as many as the link counts say. -/
structure Counted (n : Names) : Prop where
  placed : n.Placed
  root : (n.record 0).used = true
  used : ∀ d k a i, n.entries d k = some (a,i) → (n.record i).used = true ∧ i ≠ 0
  links : ∀ i, i ≠ 0 → (n.record i).used = true → (n.record i).links.toNat = targets n.entries slots i
  free : ∀ i, (n.record i).used = false → (n.record i).links = 0

section Counted
variable {n : Names} {d k c i : ℕ} {name : CStr} {kind : UInt8}

theorem mem_slots (hd : d < 256) (hk : k < 31) : (d,k) ∈ slots := mem_grid.mpr ⟨hd,hk⟩

theorem Counted.slot (h : n.Counted) {r : CStr × ℕ} (he : n.entries d k = some r) : (d,k) ∈ slots := by
  obtain ⟨hd,hk,_⟩ := h.placed.source d k r he
  exact mem_slots hd hk

/-- An inode that is not in use has no entries that refer to it. -/
theorem Counted.targets_free (h : n.Counted) (hc : (n.record c).used = false) : targets n.entries slots c = 0 := by
  refine targets_eq_zero (fun d k a he => ?_)
  have hu := (h.used d k a c he).1
  rw [hc] at hu
  cases hu

theorem Counted.take (h : n.Counted) (hc : c < 256) (hfree : (n.record c).used = false) : (n.apply (.take c)).Counted := by
  refine ⟨h.placed.apply (.take hc hfree),?_,fun d k a i he => ?_,fun i h0 hu => ?_,fun i hu => ?_⟩
  · simp only [Names.apply, setRecord_eq]
    split_ifs
    · rfl
    · exact h.root
  · obtain ⟨hu,h0⟩ := h.used d k a i he
    simp only [Names.apply, setRecord_eq]
    split_ifs
    · exact ⟨rfl,h0⟩
    · exact ⟨hu,h0⟩
  · simp only [Names.apply, setRecord_eq, setRecord_entries] at hu ⊢
    split_ifs at hu ⊢ with hic
    · rw [hic, h.free c hfree, h.targets_free hfree]
      rfl
    · exact h.links i h0 hu
  · simp only [Names.apply, setRecord_eq] at hu ⊢
    split_ifs at hu ⊢
    exact h.free i hu

theorem Counted.create (h : n.Counted) (he : n.Enabled (.create d k name c kind)) :
    (n.apply (.create d k name c kind)).Counted := by
  have hplaced := h.placed.apply he
  obtain ⟨_,_⟩ | ⟨hroom,hc,hfree,_⟩ := he
  have hc0 : c ≠ 0 := by
    rintro rfl
    rw [h.root] at hfree
    cases hfree
  have hother : ∀ i, (n.record i).used = true → i ≠ c := by
    rintro i hu rfl
    rw [hfree] at hu
    cases hu
  refine ⟨hplaced,?_,fun e j a i hr => ?_,fun i h0 hu => ?_,fun i hu => ?_⟩
  · simp only [Names.apply, setRecord_eq, if_neg (Ne.symm hc0)]
    exact h.root
  · simp only [Names.apply, setRecord_entries, setEntry_entries, setRecord_eq] at hr ⊢
    by_cases hslot : e = d ∧ j = k
    · rw [hslot.1, hslot.2, update_self] at hr
      cases hr
      exact ⟨by rw [if_pos rfl],hc0⟩
    · rw [update_of_ne hslot] at hr
      obtain ⟨hu,h0⟩ := h.used e j a i hr
      rw [if_neg (hother i hu)]
      exact ⟨hu,h0⟩
  · simp only [Names.apply, setRecord_entries, setEntry_entries, setRecord_eq] at hu ⊢
    rw [targets_update_some (mem_slots hroom.dirLt hroom.slotLt) hroom.vacant]
    split_ifs at hu ⊢ with hic
    · rw [hic, h.targets_free hfree]
      rfl
    · rw [Nat.add_zero]
      exact h.links i h0 hu
  · simp only [Names.apply, setRecord_eq] at hu ⊢
    split_ifs at hu ⊢
    exact h.free i hu

theorem Counted.link (h : n.Counted) (he : n.Enabled (.link d k name i)) (hid : i ≠ d) :
    (n.apply (.link d k name i)).Counted := by
  have hplaced := h.placed.apply he
  obtain _ | _ | ⟨hroom,hedge,hlt⟩ := he
  obtain ⟨j₀,hj₀⟩ := hedge
  obtain ⟨hu₀,h0₀⟩ := h.used _ _ _ _ hj₀
  have happly : n.apply (.link d k name i) =
      (n.setEntry d k (some (name,i))).setRecord i { n.record i with links := (n.record i).links + 1 } := if_neg hid
  rw [happly] at hplaced ⊢
  have hkeep : ∀ j, ((n.setEntry d k (some (name,i))).setRecord i
      { n.record i with links := (n.record i).links + 1 }).record j =
        { n.record j with links := if j = i then (n.record j).links + 1 else (n.record j).links } := by
    intro j
    rw [setRecord_eq]
    split_ifs with hji
    · rw [hji]
    · rfl
  refine ⟨hplaced,?_,fun e j a i' hr => ?_,fun j h0 hu => ?_,fun j hu => ?_⟩
  · rw [hkeep]
    exact h.root
  · rw [hkeep]
    rw [setRecord_entries, setEntry_entries] at hr
    by_cases hslot : e = d ∧ j = k
    · rw [hslot.1, hslot.2, update_self] at hr
      cases hr
      exact ⟨hu₀,h0₀⟩
    · rw [update_of_ne hslot] at hr
      exact h.used e j a i' hr
  · rw [hkeep] at hu ⊢
    rw [setRecord_entries, setEntry_entries, targets_update_some (mem_slots hroom.dirLt hroom.slotLt) hroom.vacant,
      ← h.links j h0 hu]
    split_ifs with hji
    · have hlt : (n.record i).links.toNat < 255 := hlt
      have h1 : (1 : UInt64).toNat = 1 := rfl
      show ((n.record j).links + 1).toNat = _
      rw [hji, UInt64.toNat_add, h1, Nat.mod_eq_of_lt (by omega)]
    · rfl
  · rw [hkeep] at hu ⊢
    split_ifs with hji
    · rw [hji, hu₀] at hu
      cases hu
    · exact h.free j hu

theorem Counted.unlink (h : n.Counted) (he : n.Enabled (.unlink d k i)) (hlinks : (n.record i).links ≤ 1)
    (hslot : ∃ a, n.entries d k = some (a,i)) : (n.apply (.unlink d k i)).Counted := by
  have hplaced := h.placed.apply he
  obtain ⟨a,ha⟩ := hslot
  obtain ⟨hu,h0⟩ := h.used d k a i ha
  have hone : targets n.entries slots i ≤ 1 := by
    rw [← h.links i h0 hu]
    exact hlinks
  refine ⟨hplaced,?_,fun e j b i' hr => ?_,fun j hj0 hju => ?_,fun j hju => ?_⟩
  · simp only [Names.apply, setRecord_eq, if_neg (Ne.symm h0)]
    exact h.root
  · simp only [Names.apply, setRecord_entries, setEntry_entries, setRecord_eq] at hr ⊢
    have hne : ¬ (e = d ∧ j = k) := by
      rintro ⟨rfl,rfl⟩
      rw [update_self] at hr
      cases hr
    rw [update_of_ne hne] at hr
    -- another entry for the inode would be a second one
    have hi : i' ≠ i := by
      rintro rfl
      exact hne (eq_of_targets_le_one hone (h.slot ha) (h.slot hr) ha hr)
    rw [if_neg hi]
    exact h.used e j b i' hr
  · simp only [Names.apply, setRecord_entries, setEntry_entries, setRecord_eq] at hju ⊢
    have hne : j ≠ i := by
      rintro rfl
      rw [if_pos rfl] at hju
      cases hju
    rw [if_neg hne] at hju ⊢
    have hcount := targets_update_none (f := j) (h.slot ha) ha
    rw [if_neg hne, Nat.add_zero] at hcount
    rw [← hcount]
    exact h.links j hj0 hju
  · simp only [Names.apply, setRecord_eq] at hju ⊢
    split_ifs at hju ⊢
    · rfl
    · exact h.free j hju

theorem Counted.apply {ch : Change} (h : n.Counted) (he : n.Enabled ch) (hok : n.CountOk ch) : (n.apply ch).Counted := by
  cases ch with
  | take c =>
    cases he with
    | take hc hfree => exact h.take hc hfree
  | create => exact h.create he
  | link => exact h.link he hok
  | lower => exact absurd hok id
  | unlink => exact h.unlink he hok.1 hok.2
  | drop => exact absurd hok id

end Counted

end Names

section Runs
variable {s s' : F19FS} {c : Call} {ret : ℤ} {l : List Change}

theorem counted_fsFormat : (namesOf fsFormat.image).Counted := by
  have hrec : ∀ i, (namesOf fsFormat.image).record i = if i = 0 then ⟨true,typeDirectory,0,1⟩ else Record.blank :=
    recordOf_fsFormat
  have hnone : ∀ d k r, (namesOf fsFormat.image).entries d k ≠ some r := by
    intro d k r he
    have he : entryAt fsFormat.image d k = some r := he
    rw [entryAt_fsFormat] at he
    cases he
  refine ⟨tidy_fsFormat.placed,by rw [hrec, if_pos rfl],fun d k a i he => absurd he (hnone d k _),fun i h0 hu => ?_,
    fun i hu => ?_⟩
  · rw [hrec, if_neg h0] at hu
    cases hu
  · rw [hrec] at hu ⊢
    split_ifs at hu ⊢
    rfl

/-- The calls that keep the counts make changes that do. -/
theorem CountsKept.along (ht : TidyImage s.image) (hg : CountsKept s c) (hl : CallChanges s.image c ret l) :
    Names.Along Names.CountOk (namesOf s.image) l := by
  cases hl with
  | refused => trivial
  | other => trivial
  | create => exact ⟨trivial,trivial⟩
  | lower hfinds _ hlinks _ => exact absurd (hg _ rfl _ hfinds).1 (UInt64.not_le.mpr hlinks)
  | unlink hfinds _ hedge hfirst =>
    obtain ⟨hlinks,hname⟩ := hg _ rfl _ hfinds
    have hk := hname.slot hedge hfirst
    refine ⟨⟨?_,?_⟩,trivial⟩
    · rw [record_links (edge_lt hedge)]
      exact hlinks
    · rw [namesOf_entries]
      exact ⟨_,hk⟩
  | @link p q k i hchk hedge =>
    have hne := hg p rfl q rfl hchk
    rw [ht.searchable.getFileInodeID_of_edge (basename_nulFree p.nulFree) hedge] at hne
    exact ⟨hne,trivial⟩
  | take => exact ⟨trivial,trivial⟩
  | drop hfinds => exact absurd hfinds (hg _ rfl _ rfl).1
  | replace hmakes => exact absurd hmakes (hg _ rfl _ rfl).2

theorem used_setRecord {n : Names} {i j : ℕ} {x : Record} (hx : (n.record i).used = true → x.used = true)
    (hu : (n.record j).used = true) : ((n.setRecord i x).record j).used = true := by
  rw [Names.setRecord_eq]
  split_ifs with hji
  · exact hx (hji ▸ hu)
  · exact hu

/-- Only the removal takes the mark of an inode. -/
theorem used_apply {n : Names} (ch : Change) {i : ℕ} (hu : (n.record i).used = true) :
    ((n.apply ch).record i).used = true ∨ ∃ d k, ch = .unlink d k i := by
  cases ch with
  | take c => exact Or.inl (used_setRecord (fun _ => rfl) hu)
  | create d k name c kind => exact Or.inl (used_setRecord (n := n.setEntry d k (some (name,c))) (fun _ => rfl) hu)
  | link d k name j =>
    rw [Names.apply]
    split_ifs
    · exact Or.inl hu
    · exact Or.inl (used_setRecord (n := n.setEntry d k (some (name,j))) id hu)
  | lower j => exact Or.inl (used_setRecord id hu)
  | unlink d k j =>
    by_cases hij : i = j
    · exact Or.inr ⟨d,k,by rw [hij]⟩
    · left
      show (((n.setEntry d k none).setRecord j Record.blank).record i).used = true
      rw [Names.setRecord_of_ne hij]
      exact hu
  | drop d k => exact Or.inl hu

theorem frees_last (ht : TidyImage s.image) (hn : (namesOf s.image).Counted) (htidy : Tidy s c) (hg : CountsKept s c)
    (hs : step s c = some s') : FreesLast s.image c s'.image := by
  intro i hi hu hu'
  obtain ⟨ret,hc⟩ := step_call hs
  obtain ⟨l,hl,_,hnames⟩ := call_refines ht htidy hc
  have hok := hg.along ht hl
  rw [← record_used hi] at hu hu'
  rw [hnames] at hu'
  cases hl with
  | refused | other =>
    rw [Names.applyAll_nil, hu] at hu'
    cases hu'
  | create | lower | take | drop | link =>
    rw [Names.applyAll_single] at hu'
    rcases used_apply _ hu with hstill | ⟨d,k,he⟩
    · rw [hstill] at hu'
      cases hu'
    · cases he
  | @unlink p j k hfinds hlinks hedge hfirst =>
    rw [Names.applyAll_single] at hu'
    obtain ⟨d,k',he⟩ := (used_apply _ hu).resolve_left (by rw [hu']; decide)
    obtain rfl := (Change.unlink.inj he).2.2
    obtain ⟨hle,a,ha⟩ := hok.1
    obtain ⟨hused,h0⟩ := hn.used _ _ _ _ ha
    have hmem := hn.slot ha
    rw [namesOf_entries] at ha
    have hone : entriesTo s.image j = 1 := by
      have hpos : 0 < entriesTo s.image j := targets_pos hmem ha
      have hsame : _ = entriesTo s.image j := hn.links j h0 hused
      have hle : ((namesOf s.image).record j).links.toNat ≤ 1 := hle
      omega
    refine ⟨⟨p,rfl,hedge⟩,hone,?_⟩
    have hmap : entryAt s'.image = update (entryAt s.image) (parentOf s.image p.chars) k none := congrArg Names.entries hnames
    have hcount := targets_update_none (f := j) hmem ha
    have hcount : entriesTo s.image j = entriesTo s'.image j + if j = j then 1 else 0 := by
      rw [entriesTo, entriesTo, hmap]
      exact hcount
    rw [if_pos rfl] at hcount
    omega
  | replace hmakes => exact absurd hmakes (hg _ rfl _ rfl).2

end Runs

/-- In runs of such calls the link counts are the numbers of entries, and an inode is freed with its last entry. -/
theorem link_counts {s : F19FS} (h : Reach step (fun s c => Tidy s c ∧ CountsKept s c) fsFormat s) :
    CountsAgree s.image ∧ ∀ c s', Tidy s c → CountsKept s c → step s c = some s' → FreesLast s.image c s'.image := by
  obtain ⟨ht,hn⟩ := names_invariant (I := Names.Counted) counted_fsFormat (fun ht _ hg hl => hg.along ht hl)
    (fun n ch hI hok => hI.apply hok.1 hok.2) h
  refine ⟨fun i hi h0 hu => ?_,fun c s' htidy hg hs => frees_last ht hn htidy hg hs⟩
  rw [← record_links hi]
  exact hn.links i h0 ((record_used hi).trans hu)

theorem countsKept_of_plain {s : F19FS} {c : Call} (h : plainTidy s c = true) : CountsKept s c := by
  have hp := (Bool.and_eq_true_iff.mp h).1
  cases c with
  | remove | move | link => cases hp
  | _ => trivial

theorem fileB_nulFree : 0 ∉ ofChars ['/','b'] := by decide

def fileB : PathArg := ⟨ofChars ['/','b'],fileB_nulFree⟩

theorem link_counts_linked : ∃ s, run step fsFormat [.create (some fileA) .regular,.link (some fileA) (some fileB)] = some s ∧
    CountsAgree s.image ∧ (inodeAt s.image 1).linkCount = 2 := by
  have hrun : (run (checked plainTidy step) fsFormat [.create (some fileA) .regular]).bind (fun s =>
      (step s (.link (some fileA) (some fileB))).map (fun s' =>
        decide ((inodeAt s.image (parentOf s.image fileB.chars)).dirBlock ≠ 0) &&
        decide (getFileInodeID s.image (parentOf s.image fileA.chars) (basename fileA.chars) ≠ parentOf s.image fileB.chars) &&
        decide ((inodeAt s'.image 1).linkCount = 2))) = some true := by
    decide +kernel
  obtain ⟨s,hs,hr⟩ := Option.bind_eq_some_iff.mp hrun
  obtain ⟨s',hl,hf⟩ := Option.map_eq_some_iff.mp hr
  simp only [Bool.and_eq_true, decide_eq_true_eq] at hf
  obtain ⟨⟨hb,hne⟩,htwo⟩ := hf
  have hreach : Reach step (fun s c => Tidy s c ∧ CountsKept s c) fsFormat s :=
    reach_of_checked_run (fun s c hc => ⟨tidy_of_plainTidy s c hc,countsKept_of_plain hc⟩) hs
  have htidy : Tidy s (.link (some fileA) (some fileB)) := by
    refine ⟨fun p hp q hq _ => ?_,trivial⟩
    obtain rfl := Option.mem_some_iff.mp hp
    obtain rfl := Option.mem_some_iff.mp hq
    exact hb
  have hkept : CountsKept s (.link (some fileA) (some fileB)) := by
    intro p hp q hq _
    obtain rfl := Option.mem_some_iff.mp hp
    obtain rfl := Option.mem_some_iff.mp hq
    exact hne
  exact ⟨s',run_concat (run_of_checked hs) hl,(link_counts (hreach.tail ⟨htidy,hkept⟩ hl)).1,htwo⟩

/-- After the removal of one of two names both entries are there, and one link is counted. -/
theorem link_counts_fail : ¬ ∀ s, Reach step (fun _ _ => True) fsFormat s → CountsAgree s.image := by
  intro hall
  have hrun : (run step fsFormat [.create (some fileA) .regular,.link (some fileA) (some fileB),.remove (some fileB)]).map
      (fun s => decide (entryAt s.image 0 0 = some (basename fileA.chars,1)) &&
        decide (entryAt s.image 0 1 = some (basename fileB.chars,1)) && inodeUsed s.image 1 &&
        decide ((inodeAt s.image 1).linkCount = 1)) = some true := by
    decide +kernel
  obtain ⟨s,hs,hf⟩ := Option.map_eq_some_iff.mp hrun
  simp only [Bool.and_eq_true, decide_eq_true_eq] at hf
  obtain ⟨⟨⟨ha,hb⟩,hu⟩,hone⟩ := hf
  have hcount := hall s (reach_of_run hs) 1 (by decide) (by decide) hu
  rw [hone] at hcount
  have hslot := eq_of_targets_le_one (E := entryAt s.image) (F := slots) (e := 1) (by
    rw [← entriesTo, ← hcount]
    exact le_rfl) (Names.mem_slots (by omega) (by omega)) (Names.mem_slots (by omega) (by omega)) ha hb
  exact absurd hslot.2 (by decide)

end LiteOSFS
