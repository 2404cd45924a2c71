import LiteOSFS.FileSystem.NameRefine

/-! # Which entry fs_remove takes out

The inode that is given back is that of the entry with exactly the last name of the path;
the slot that is emptied is the first one whose name begins with it.
-/
namespace LiteOSFS
open Memory CString Ownership EntryGraph Transition

/-- The entry is gone, and every other one is there and refers to an inode in use of the type that it had. -/
structure RemovesExactly (m m' : Mem) (d : ℕ) (name : CStr) : Prop where
  gone : ∀ i, ¬ Edge (entryAt m') d name i
  others : ∀ e a i, Edge (entryAt m) e a i → ¬ (e = d ∧ a = name) → Edge (entryAt m') e a i ∧
    inodeUsed m' i = true ∧ (inodeAt m' i).fileType = (inodeAt m i).fileType

/-- No name in an earlier slot of the directory begins with the name of this entry. -/
def FirstOfName (m : Mem) (d : ℕ) (name : CStr) (i : ℕ) : Prop :=
  ∀ k, entryAt m d k = some (name,i) → ∀ j < k, ∀ a e, entryAt m d j = some (a,e) → ¬ name <+: a

/-- A regular file has no further link, its name is the first with that beginning, and the other entries refer to
other inodes, which are in use. -/
structure Removable (m : Mem) (d : ℕ) (name : CStr) (i : ℕ) : Prop where
  links : (inodeAt m i).fileType = typeRegular → (inodeAt m i).linkCount ≤ 1
  first : FirstOfName m d name i
  others : ∀ e a j, Edge (entryAt m) e a j → ¬ (e = d ∧ a = name) → j ≠ i ∧ inodeUsed m j = true

theorem removeTarget_eq_some {m : Mem} {path : CStr} {i : ℕ} (h : removeTarget m path = some i) :
    getFileInodeID m (parentOf m path) (basename path) = i := by
  unfold removeTarget at h
  split_ifs at h
  exact Option.some.inj h

section Unlinked
variable {m m' : Mem} {d k i : ℕ} {name : CStr}

theorem unlinked_record (hn : namesOf m' = (namesOf m).apply (.unlink d k i)) (j : ℕ) :
    recordOf m' j = if j = i then Record.blank else recordOf m j :=
  (congrFun (congrArg Names.record hn) j).trans (Names.setRecord_eq _)

/-- The first slot whose name begins with that of an entry comes no later than the entry. -/
theorem FirstPrefix.le {E : Entries ℕ ℕ CStr} {k₀ : ℕ} (h : Names.FirstPrefix E d name k) (he : E d k₀ = some (name,i)) :
    k ≤ k₀ := by
  by_contra hlt
  exact h.2 k₀ (by omega) name i he (List.prefix_refl name)

/-- Then the search for the beginning finds the entry. -/
theorem FirstOfName.slot (h : FirstOfName m d name i) (hedge : Edge (entryAt m) d name i)
    (hfirst : Names.FirstPrefix (entryAt m) d name k) : entryAt m d k = some (name,i) := by
  obtain ⟨k₀,hk₀⟩ := hedge
  obtain ⟨a,e,hk,hpre⟩ := hfirst.1
  rcases (FirstPrefix.le hfirst hk₀).lt_or_eq with hlt | rfl
  · exact absurd hpre (h k₀ hk₀ k hlt a e hk)
  · exact hk₀

theorem removesExactly_iff (hE : Distinct (entryAt m)) (hn : namesOf m' = (namesOf m).apply (.unlink d k i))
    (hlinks : (inodeAt m i).fileType = typeRegular → ¬ (inodeAt m i).linkCount > 1) (hedge : Edge (entryAt m) d name i)
    (hfirst : Names.FirstPrefix (entryAt m) d name k) : RemovesExactly m m' d name ↔ Removable m d name i := by
  have hmap : entryAt m' = update (entryAt m) d k none := congrArg Names.entries hn
  obtain ⟨k₀,hk₀⟩ := hedge
  have hle := FirstPrefix.le hfirst hk₀
  constructor
  · intro h
    have hk : k = k₀ := by
      by_contra hne
      refine h.gone i ⟨k₀,?_⟩
      rw [hmap, update_of_ne (fun hc => hne hc.2.symm), hk₀]
    refine ⟨fun hreg => UInt64.not_lt.mp (hlinks hreg),fun k₁ hk₁ j hj a e he => ?_,fun e a j he hne => ?_⟩
    · obtain rfl := hE _ _ _ _ _ _ hk₁ hk₀
      exact hfirst.2 j (by omega) a e he
    · obtain ⟨_,hu,_⟩ := h.others e a j he hne
      have hj := edge_lt he
      rw [← record_used hj, hn] at hu
      have hrec : ((namesOf m).apply (.unlink d k i)).record j = _ := Names.setRecord_eq j
      rw [hrec] at hu
      split_ifs at hu with hji
      · cases hu
      · exact ⟨hji,(record_used hj).symm.trans hu⟩
  · intro h
    have hk := h.first.slot ⟨k₀,hk₀⟩ hfirst
    refine ⟨fun j hj => ?_,fun e' a' j he hne => ?_⟩
    · rw [hmap, hE.edge_update_none hk] at hj
      exact hj.2 ⟨rfl,rfl⟩
    · obtain ⟨hji,hu⟩ := h.others e' a' j he hne
      have hj := edge_lt he
      have hrec := unlinked_record hn j
      rw [if_neg hji, recordOf_lt hj, recordOf_lt hj] at hrec
      refine ⟨?_,(congrArg Record.used hrec).trans hu,congrArg Record.kind hrec⟩
      rw [hmap, hE.edge_update_none hk]
      exact ⟨he,hne⟩

end Unlinked

/-- When `fs_remove` returns 0, it has removed exactly the entry named if and only if that entry can be removed so. -/
theorem remove_exact {s s' : F19FS} {path : PathArg} (h : TidyReachable s) (hsafe : Safe s (.remove (some path)))
    (hr : call s (.remove (some path)) = some (0,s')) :
    RemovesExactly s.image s'.image (parentOf s.image path.chars) (basename path.chars) ↔
      Removable s.image (parentOf s.image path.chars) (basename path.chars)
        (getFileInodeID s.image (parentOf s.image path.chars) (basename path.chars)) := by
  obtain ⟨l,hl,_,hn⟩ := call_refines h.tidy ⟨hsafe,trivial⟩ hr
  cases hl with
  | refused _ hne => exact absurd rfl hne
  | other hno => exact absurd trivial hno
  | @lower _ i hfinds hreg hlinks hedge =>
    -- the entry stays
    rw [removeTarget_eq_some hfinds.target]
    have hmap : entryAt s'.image = entryAt s.image := congrArg Names.entries hn
    constructor
    · intro hx
      exact absurd (hmap ▸ hedge) (hx.gone i)
    · intro hx
      exact absurd (hx.links hreg) (UInt64.not_le.mpr hlinks)
  | unlink hfinds hlinks hedge hfirst =>
    rw [removeTarget_eq_some hfinds.target]
    exact removesExactly_iff h.tidy.distinct hn hlinks hedge hfirst

theorem fileA_nulFree : 0 ∉ ofChars ['/','a'] := by decide

/-- A file `/a`, and one whose name begins with that name. -/
def fileA : PathArg := ⟨ofChars ['/','a'],fileA_nulFree⟩
def fileAb : PathArg := ⟨ofChars ['/','a','b'],by decide⟩

/-- `/a`, `/ab` and a directory `/d` with an entry `a`. -/
def removeSetting : List Call := [.create (some fileA) .regular,.create (some fileAb) .regular,
  .create (pathArg ['/','d']) .directory,.create (pathArg ['/','d','/','a']) .regular]

/-- The removal of `/a` leaves `/ab`, which comes after it, and `/d/a`. -/
theorem remove_exact_file : ∃ s s', run step fsFormat removeSetting = some s ∧
    call s (.remove (some fileA)) = some (0,s') ∧ RemovesExactly s.image s'.image 0 (basename fileA.chars) ∧
    (liveEntries s.image 0).map Prod.fst = [ofChars ['a'],ofChars ['a','b'],ofChars ['d']] := by
  have hrun : (run (checked plainTidy step) fsFormat removeSetting).bind (fun s =>
      (call s (.remove (some fileA))).map (fun r => decide (r.1 = 0) && decide (removeTarget s.image fileA.chars = some 1) &&
        decide ((inodeAt s.image 1).fileType = typeRegular ∧ (inodeAt s.image 1).linkCount ≤ 1 ∧
          parentOf s.image fileA.chars = 0 ∧
          (liveEntries s.image 0).map Prod.fst = [ofChars ['a'],ofChars ['a','b'],ofChars ['d']]) &&
        entriesCheck s.image (fun e k a i => if e = 0 ∧ a = basename fileA.chars then k == 0 else i != 1 && inodeUsed s.image i))) =
      some true := by
    decide +kernel
  obtain ⟨s,hs,hr⟩ := Option.bind_eq_some_iff.mp hrun
  obtain ⟨⟨ret,s'⟩,hr,hf⟩ := Option.map_eq_some_iff.mp hr
  simp only [Bool.and_eq_true, decide_eq_true_eq] at hf
  obtain ⟨⟨⟨rfl,htar⟩,hreg,hlinks,hpar,hlive⟩,hentries⟩ := hf
  have hsafe : Safe s (.remove (some fileA)) := by
    intro p hp i hi hno
    obtain rfl := Option.mem_some_iff.mp hp
    rw [htar] at hi
    rw [← Option.some.inj hi] at hno
    exact absurd hreg hno
  have hiff := remove_exact (tidyReachable_of_plain hs) hsafe hr
  rw [removeTarget_eq_some htar, hpar] at hiff
  refine ⟨s,s',run_of_checked hs,hr,hiff.mpr ⟨fun _ => hlinks,fun k hk j hj => ?_,fun e a i he hne => ?_⟩,hlive⟩
  · have hzero := test_of_entriesCheck hentries hk
    rw [if_pos ⟨rfl,rfl⟩, beq_iff_eq] at hzero
    omega
  · obtain ⟨k,he⟩ := he
    have htest := test_of_entriesCheck hentries he
    rw [if_neg hne, Bool.and_eq_true, bne_iff_ne] at htest
    exact htest

/-- The removal of `/a` takes out the entry of `/ab`. -/
theorem remove_exact_fails : ¬ ∀ s s' (path : PathArg), Reach step (fun _ _ => True) fsFormat s →
    call s (.remove (some path)) = some (0,s') →
    RemovesExactly s.image s'.image (parentOf s.image path.chars) (basename path.chars) := by
  intro hall
  have hrun : (run step fsFormat [.create (some fileAb) .regular,.create (some fileA) .regular]).bind (fun s =>
      (call s (.remove (some fileA))).map (fun r => decide (r.1 = 0) && decide (parentOf s.image fileA.chars = 0) &&
        decide (entryAt r.2.image 0 1 = some (basename fileA.chars,2)))) = some true := by
    decide +kernel
  obtain ⟨s,hs,hr⟩ := Option.bind_eq_some_iff.mp hrun
  obtain ⟨⟨ret,s'⟩,hr,hf⟩ := Option.map_eq_some_iff.mp hr
  simp only [Bool.and_eq_true, decide_eq_true_eq] at hf
  obtain ⟨⟨rfl,hpar⟩,he⟩ := hf
  have hx := hall s s' fileA (reach_of_run hs) hr
  rw [hpar] at hx
  exact hx.gone 2 ⟨1,he⟩

end LiteOSFS
