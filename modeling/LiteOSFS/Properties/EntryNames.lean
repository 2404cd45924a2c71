import LiteOSFS.FileSystem.NameRefine
import LiteOSFS.Properties.PathWalks
import Mathlib.Data.List.TakeWhile

/-! # Names that can be walked to

`fs_create` checks the characters of a new name, `fs_link` and the directory that `fs_move`
makes do not. Where the other two are only given names that pass the check, and no entry of
a directory is taken out that is the only way to further entries, every entry is found
under the path of the names that lead to it.
-/
namespace LiteOSFS
open Memory CString Ownership EntryGraph Transition

/-- Every entry has a name that ends in its slot and passes the check, other than those of its directory, and the
walks of `fs_open` and `fs_get_dir` reach it along the names that lead there. -/
structure Addressable (s : F19FS) : Prop where
  fits : ∀ d j a i, entryAt s.image d j = some (a,i) → FitsSlot a ∧ isValidFileName a = true
  distinct : Distinct (entryAt s.image)
  named : ∀ d j a i, entryAt s.image d j = some (a,i) → ∃ ns, Path (entryAt s.image) 0 (ns ++ [a]) i ∧
    Path (entryAt s.image) 0 ns d
  opened : ∀ ns i, ns ≠ [] → Path (entryAt s.image) 0 ns i → (joinPath ns).length < 65535 →
    fsOpen s (some (joinPath ns)) = some (openFound s (some i))
  listed : ∀ ns i, ns ≠ [] → Path (entryAt s.image) 0 ns i → (joinPath ns).length < 200 →
    fsGetDir s (some (joinPath ns)) = listDir s.image i

/-- The inode of the first entry whose name begins with `name` has no entries, or is reached without that entry. -/
def KeepsEntries (E : Entries ℕ ℕ CStr) (d : ℕ) (name : CStr) : Prop :=
  ∀ k b j, Names.FirstPrefix E d name k → E d k = some (b,j) →
    (∀ a e, ¬ Edge E j a e) ∨ Reached (update E d k none) 0 j

/-- Calls that keep the names in order: `fs_link`, and `fs_move` where it makes a directory, are given names that
`isValidFileName` accepts, and no entry is taken out that is the only way to further entries. -/
def NamesKept (s : F19FS) : Call → Prop
  | .link src dst => ∀ p ∈ src, ∀ q ∈ dst, LinkChecked s.image p.chars q.chars → isValidFileName (basename q.chars) = true
  | .remove path => ∀ p ∈ path, ∀ i, RemoveFinds s.image p.chars i →
      KeepsEntries (entryAt s.image) (parentOf s.image p.chars) (basename p.chars)
  | .move src dst _ => ∀ p ∈ src, ∀ q ∈ dst,
      (MoveFinds s.image p.chars q.chars →
        KeepsEntries (entryAt s.image) (parentOf s.image p.chars) (basename p.chars)) ∧
      (MoveMakes s.image p.chars q.chars → isValidFileName (basename q.chars) = true ∧
        KeepsEntries ((namesOf s.image).apply (moveDirectory s.image q.chars)).entries
          (parentOf s.image p.chars) (basename p.chars))
  | _ => True

theorem slash_not_mem_basename {path : CStr} (h : isValidPath path = true) : slash ∉ basename path := by
  have hlast : path.getLast? ≠ some slash := by
    intro hl
    rw [isValidPath, hl] at h
    simp at h
  have hne : path ≠ [] := by
    rintro rfl
    cases h
  obtain ⟨u,c,rfl⟩ := path.eq_nil_or_concat.resolve_left hne
  rw [List.concat_eq_append] at hlast ⊢
  have hc : c ≠ slash := by
    rintro rfl
    exact hlast (List.getLast?_concat)
  simp only [basename, rtrim_of_last hc, if_neg (show u ++ [c] ≠ [] by simp), List.mem_reverse]
  intro hm
  have hp := List.mem_takeWhile_imp hm
  simp at hp

/-- A component that is split off and passes the check. -/
theorem CreateChecked.pathName {m : Mem} {path : PathArg} {tokens : List CStr} {d : ℕ} {name : CStr}
    (h : CreateChecked m path.chars tokens d name) : ∀ n ∈ tokens, PathName n := by
  intro n hn
  have hval := List.all_eq_true.mp h.valid n hn
  have hlen := isValidFileName_length hval
  refine ⟨hval,?_,splitPath_nulFree h.split path.nulFree hn⟩
  rw [(splitPath_some h.split).2] at hn
  rcases List.mem_append.mp hn with htok | hpad
  · exact (mem_strtok htok).2.1
  · rw [List.eq_of_mem_replicate hpad] at hlen
    cases hlen.1

namespace Names

/-- The changes that keep entries within reach under names in order. -/
def NamedOk (n : Names) : Change → Prop
  | .create d _ name _ _ => PathName name ∧ Reached n.entries 0 d
  | .link d _ name _ => PathName name ∧ Reached n.entries 0 d
  | .unlink d k _ => ∀ b j, n.entries d k = some (b,j) → (∀ a e, ¬ Edge n.entries j a e) ∨ Reached (update n.entries d k none) 0 j
  | .drop d k => ∀ b j, n.entries d k = some (b,j) → (∀ a e, ¬ Edge n.entries j a e) ∨ Reached (update n.entries d k none) 0 j
  | _ => True

/-- Entries have names in order, and are in directories within reach of the root. -/
structure Named (n : Names) : Prop where
  valid : ∀ d k a i, n.entries d k = some (a,i) → PathName a
  reached : ∀ d k r, n.entries d k = some r → Reached n.entries 0 d

section Named
variable {n : Names} {d k i : ℕ} {name : CStr}

theorem Named.fill (h : n.Named) (hvac : n.entries d k = none) (hname : PathName name) (hd : Reached n.entries 0 d) :
    (n.setEntry d k (some (name,i))).Named := by
  refine ⟨fun e j a i' he => ?_,fun e j r he => ?_⟩
  · rw [setEntry_entries] at he
    by_cases hc : e = d ∧ j = k
    · rw [hc.1, hc.2, update_self] at he
      cases he
      exact hname
    · rw [update_of_ne hc] at he
      exact h.valid e j a i' he
  · rw [setEntry_entries] at he
    by_cases hc : e = d ∧ j = k
    · rw [hc.1]
      exact hd.update_some hvac
    · rw [update_of_ne hc] at he
      exact (h.reached e j r he).update_some hvac

theorem Named.empty (h : n.Named) (hk : n.entries d k = some (name,i))
    (hout : (∀ a e, ¬ Edge n.entries i a e) ∨ Reached (update n.entries d k none) 0 i) : (n.setEntry d k none).Named := by
  have hold : ∀ {e j r}, update n.entries d k none e j = some r → n.entries e j = some r := by
    intro e j r he
    by_cases hc : e = d ∧ j = k
    · rw [hc.1, hc.2, update_self] at he
      cases he
    · rwa [update_of_ne hc] at he
  refine ⟨fun e j a i' he => h.valid e j a i' (hold he),fun e j r he => ?_⟩
  have he' : n.entries e j = some r := hold he
  rcases (h.reached e j r he').update_none hk hout.symm with rfl | hr
  · rcases hout with hno | hr
    · exact absurd ⟨j,he'⟩ (hno r.1 r.2)
    · exact hr
  · exact hr

theorem Named.apply {ch : Change} (h : n.Named) (he : n.Enabled ch) (hok : n.NamedOk ch) : (n.apply ch).Named := by
  cases he with
  | take | lower => exact ⟨h.valid,h.reached⟩
  | @create d k c name kind hroom =>
    have hfill := h.fill (i := c) hroom.vacant hok.1 hok.2
    exact ⟨hfill.valid,hfill.reached⟩
  | @link d k p i name a hroom =>
    have hfill := h.fill (i := i) hroom.vacant hok.1 hok.2
    rw [Names.apply]
    split_ifs
    · exact hfill
    · exact ⟨hfill.valid,hfill.reached⟩
  | unlink _ hfirst =>
    obtain ⟨b,j,hk,_⟩ := hfirst.1
    have hempty := h.empty hk (hok b j hk)
    exact ⟨hempty.valid,hempty.reached⟩
  | drop _ hfirst =>
    obtain ⟨b,j,hk,_⟩ := hfirst.1
    exact h.empty hk (hok b j hk)

end Named

end Names

section Runs
variable {m : Mem} {s : F19FS} {c : Call} {ret : ℤ} {l : List Change}

/-- The parent that `fs_create` goes on with is reached along the components before the last. -/
theorem TidyImage.reached_create (ht : TidyImage m) {path name : CStr} {tokens : List CStr} {d : ℕ}
    (h : CreateChecked m path tokens d name) : Reached (entryAt m) 0 d := by
  refine ⟨tokens.dropLast,(resolve_eq_some ht.inv.dirsReadable ht.distinct).mp ?_⟩
  rw [resolve, if_pos (by rw [h.found, List.length_dropLast]), h.parent]

theorem TidyImage.reached_parent (ht : TidyImage m) {path : CStr} (hnul : 0 ∉ path) (hp : parentOf m path ≠ sizeMax) :
    Reached (entryAt m) 0 (parentOf m path) := by
  obtain ⟨hlt,_⟩ := parentOf_spec ht.inv hp
  refine ⟨strtok slash (dirname path),?_⟩
  exact ((ht.searchable.getParentDirInodeID_eq (by omega) ht.searchable.root
    (fun n hn h0 => dirname_nulFree hnul ((mem_strtok hn).2.2 h0)) hlt).mp rfl).1

/-- The calls that keep names in order make changes that do. -/
theorem NamesKept.along (ht : TidyImage s.image) (hg : NamesKept s c) (hl : CallChanges s.image c ret l) :
    Names.Along Names.NamedOk (namesOf s.image) l := by
  cases hl with
  | refused | other => trivial
  | @create p type tokens d k c name hch =>
    exact ⟨⟨hch.pathName name hch.mem,ht.reached_create hch⟩,trivial⟩
  | lower | take => exact ⟨trivial,trivial⟩
  | @link p q k i hchk _ =>
    exact ⟨⟨⟨hg p rfl q rfl hchk,slash_not_mem_basename hchk.dstValid,basename_nulFree q.nulFree⟩,
      ht.reached_parent q.nulFree hchk.dstParent⟩,trivial⟩
  | @unlink p i k hfinds _ _ hfirst =>
    refine ⟨fun b j he => ?_,trivial⟩
    rw [namesOf_entries] at he ⊢
    exact hg p rfl i hfinds k b j hfirst he
  | @drop p q junk k hfinds hfirst =>
    refine ⟨fun b j he => ?_,trivial⟩
    rw [namesOf_entries] at he ⊢
    exact (hg p rfl q rfl).1 hfinds k b j hfirst he
  | @replace p q junk k hmakes hfirst =>
    obtain ⟨hval,hkeep⟩ := (hg p rfl q rfl).2 hmakes
    exact ⟨⟨⟨hval,slash_not_mem_basename hmakes.checked.dstValid,basename_nulFree q.nulFree⟩,
      ht.reached_parent q.nulFree hmakes.checked.dstParent⟩,fun b j he => hkeep k b j hfirst he,trivial⟩

end Runs

/-- In runs of such calls every entry has a name in order and can be walked to. -/
theorem entries_addressable {s : F19FS} (h : Reach step (fun s c => Tidy s c ∧ NamesKept s c) fsFormat s) :
    Addressable s := by
  have h0 : (namesOf fsFormat.image).Named := by
    have hnone : ∀ d k r, (namesOf fsFormat.image).entries d k ≠ some r := by
      intro d k r he
      have he : entryAt fsFormat.image d k = some r := he
      rw [entryAt_fsFormat] at he
      cases he
    exact ⟨fun d k a i he => absurd he (hnone d k _),fun d k r he => absurd he (hnone d k r)⟩
  obtain ⟨ht,hn⟩ := names_invariant (I := Names.Named) h0 (fun ht _ hg hl => hg.along ht hl)
    (fun n ch hI hok => hI.apply hok.1 hok.2) h
  have hwalk : ∀ {ns i}, Path (entryAt s.image) 0 ns i → resolve s.image ns = some i := fun hp =>
    (resolve_eq_some ht.inv.dirsReadable ht.distinct).mpr hp
  have hvalid : ∀ {ns i}, Path (entryAt s.image) 0 ns i → ∀ n ∈ ns, PathName n := by
    intro ns
    induction ns using List.reverseRecOn with
    | nil =>
      intro i _ n hmem
      cases hmem
    | append_singleton ns a ih =>
      intro i hp n hmem
      obtain ⟨e,hpe,k,hk⟩ := path_concat.mp hp
      rcases List.mem_append.mp hmem with hold | hlast
      · exact ih hpe n hold
      · rw [List.mem_singleton.mp hlast]
        exact hn.valid e k a i hk
  refine ⟨fun d j a i he => ?_,ht.distinct,fun d j a i he => ?_,fun ns i hne hp hlong => ?_,fun ns i hne hp hlong => ?_⟩
  · have ha : PathName a := hn.valid d j a i he
    exact ⟨⟨ha.2.2,ht.terminated d j a i he⟩,ha.1⟩
  · obtain ⟨ns,hp⟩ := hn.reached d j (a,i) he
    exact ⟨ns,path_concat.mpr ⟨d,hp,j,he⟩,hp⟩
  · rw [fsOpen_names hne (hvalid hp) hlong, hwalk hp]
  · rw [fsGetDir_names hne (hvalid hp) hlong, hwalk hp]
    rfl

theorem namesKept_of_plain {s : F19FS} {c : Call} (h : plainTidy s c = true) : NamesKept s c := by
  have hp := (Bool.and_eq_true_iff.mp h).1
  cases c with
  | remove | move | link => cases hp
  | _ => trivial

theorem entries_addressable_created : ∃ s, run step fsFormat [.create (pathArg ['/','d']) .directory,
      .create (pathArg ['/','d','/','a']) .regular] = some s ∧ entryAt s.image 1 0 = some (ofChars ['a'],2) ∧ Addressable s := by
  have hrun : (run (checked plainTidy step) fsFormat [.create (pathArg ['/','d']) .directory,
      .create (pathArg ['/','d','/','a']) .regular]).map (fun s => decide (entryAt s.image 1 0 = some (ofChars ['a'],2))) =
      some true := by
    decide +kernel
  obtain ⟨s,hs,he⟩ := Option.map_eq_some_iff.mp hrun
  have hreach : Reach step (fun s c => Tidy s c ∧ NamesKept s c) fsFormat s :=
    reach_of_checked_run (fun s c hc => ⟨tidy_of_plainTidy s c hc,namesKept_of_plain hc⟩) hs
  exact ⟨s,run_of_checked hs,of_decide_eq_true he,entries_addressable hreach⟩

/-- A link whose name no walk accepts. -/
theorem entries_addressable_fail : ¬ ∀ s, Reach step (fun _ _ => True) fsFormat s → Addressable s := by
  intro hall
  have hrun : (run step fsFormat [.create (pathArg ['/','a']) .regular,
      .link (pathArg ['/','a']) (pathArg ['/','b','!'])]).map (fun s =>
        decide (entryAt s.image 0 1 = some (ofChars ['b','!'],1))) = some true := by
    decide +kernel
  obtain ⟨s,hs,he⟩ := Option.map_eq_some_iff.mp hrun
  have hval := ((hall s (reach_of_run hs)).fits 0 1 _ _ (of_decide_eq_true he)).2
  exact absurd hval (by decide)

end LiteOSFS
