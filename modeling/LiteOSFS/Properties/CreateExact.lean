import LiteOSFS.Properties.EntryNames

/-! # What fs_create adds

A successful `fs_create` adds one name and keeps the others, unless slot 0 of its directory
is vacant while others are in use: the directory then gets another block, and the slots in
use show what that block holds.
-/
namespace LiteOSFS
open Memory CString Ownership EntryGraph Transition

/-- The inode is new, and a file of the requested type without contents and with one link. -/
structure FreshFile (m m' : Mem) (type : FileT) (c : ℕ) : Prop where
  lt : c < 256
  free : inodeUsed m c = false
  marked : inodeUsed m' c = true
  fileType : type = .regular ∧ (inodeAt m' c).fileType = typeRegular ∨
    type = .directory ∧ (inodeAt m' c).fileType = typeDirectory
  size : (inodeAt m' c).fileSize = 0
  links : (inodeAt m' c).linkCount = 1

/-- The path leads to a new file, the other paths lead where they did, the entries next to it are as they were, and
one vacant slot in all directories is filled. -/
structure AddsName (m m' : Mem) (path : CStr) (type : FileT) : Prop where
  added : ∃ tokens c, splitPath path = some (some tokens) ∧ resolve m' tokens = some c ∧ FreshFile m m' type c
  kept : ∀ names i, resolve m names = some i → resolve m' names = some i
  siblings : ∀ tokens d, splitPath path = some (some tokens) → createParent m tokens = some d →
    ∀ j a i, entryAt m d j = some (a,i) → entryAt m' d j = some (a,i)
  only : ∃ d k r, entryAt m d k = none ∧ entryAt m' = update (entryAt m) d k (some r)

/-- The slots of the directory are kept: slot 0 is in use, or the first free block has the same names and inode
numbers in the slots in use. -/
def SlotsKept (m : Mem) (path : CStr) : Prop := ∀ tokens d name, CreateChecked m path tokens d name →
  (inodeAt m d).live 0 = false → ∀ j a i, entryAt m d j = some (a,i) →
    entryName (blockAt m (firstFree m)) j = a ∧ entryInode (blockAt m (firstFree m)) j = i

theorem CreateChecked.unique {m : Mem} {path name name' : CStr} {tokens tokens' : List CStr} {d d' : ℕ}
    (h : CreateChecked m path tokens d name) (h' : CreateChecked m path tokens' d' name') : d' = d := by
  have ht : tokens' = tokens := Option.some.inj (Option.some.inj (h'.split.symm.trans h.split))
  rw [← h.parent, ← h'.parent, ht]

section Created
variable {m m' : Mem} {d k b c : ℕ} {name : CStr} {type : FileT}

theorem Created.freshFile (h : Created m d name type m' k b c) (htype : type ≠ .invalid) : FreshFile m m' type c := by
  refine ⟨h.inodeLt,h.inodeFree,?_,?_,by rw [h.child]; rfl,by rw [h.child]; rfl⟩
  · rw [h.bits c h.inodeLt, decide_eq_true rfl, Bool.true_or]
  · rw [h.child]
    cases type with
    | regular => exact Or.inl ⟨rfl,rfl⟩
    | directory => exact Or.inr ⟨rfl,rfl⟩
    | invalid => exact absurd rfl htype

theorem Created.slot_zero (h : Created m d name type m' k b c) (hvac : (inodeAt m d).live 0 = false) : k = 0 := by
  by_contra hne
  rw [h.packed 0 (by omega)] at hvac
  cases hvac

theorem Created.slot_none (h : Created m d name type m' k b c) : entryAt m d k = none := by
  rw [entryAt_eq_none]
  rintro ⟨_,_,_,hl⟩
  rw [h.vacant] at hl
  cases hl

/-- An entry that is still there is in the block that the directory then has. -/
theorem Created.slot_kept (h : Created m d name type m' k b c) (hname : FitsSlot name) (hterm : Terminated m) {j i : ℕ}
    {a : CStr} (hold : entryAt m d j = some (a,i)) (hnew : entryAt m' d j = some (a,i)) :
    entryName (blockAt m b) j = a ∧ entryInode (blockAt m b) j = i := by
  obtain ⟨⟨_,hj,_⟩,_⟩ := entryAt_eq_some.mp hold
  obtain ⟨_,hn,hino⟩ := entryAt_eq_some.mp hnew
  have hjk : k ≠ j := by
    rintro rfl
    rw [h.slot_none] at hold
    cases hold
  have hs : SlotEq (blockAt m' b) (blockAt m b) j := by
    rw [h.entry]
    intro x hx
    rw [slotEq_window hj x hx, slotEq_putEntry hname.2 hjk x hx]
  rw [h.parent, Inode.dirBlock_withEntry _ (by have := h.block.1.2; omega)] at hn hino
  exact ⟨(hs.entryName_eq (hn ▸ zero_not_mem_read _ _ _) (hterm d j a i hold)).mp hn,hs.entryInode_eq ▸ hino⟩

/-- With the slots kept the new name is one more path, and the others lead where they did. -/
theorem Created.addsName {path : PathArg} {tokens : List CStr} (h : Created m d name type m' k b c) (ht : TidyImage m)
    (hi' : ImageInv m') (hch : CreateChecked m path.chars tokens d name) (hname : FitsSlot name) (htype : type ≠ .invalid)
    (hkeep : k = 0 → ∀ j a i, entryAt m d j = some (a,i) →
      entryName (blockAt m b) j = a ∧ entryInode (blockAt m b) j = i) : AddsName m m' path.chars type := by
  have hmap : entryAt m' = update (entryAt m) d k (some (name,c)) := by
    funext e j
    exact h.entryAt_eq_kept ht.inv hch.lt hch.directory hname ht.terminated hkeep e j
  have hno : ∀ e, ¬ Edge (entryAt m) d name e := (no_edge_iff hch.lt hch.directory).mpr h.absent
  have hE' : Distinct (entryAt m') := by
    rw [hmap]
    exact ht.distinct.update_some hno
  have hmono : ∀ e a i, Edge (entryAt m) e a i → Edge (entryAt m') e a i := by
    intro e a i he
    rw [hmap]
    exact (edge_update_some h.slot_none).mpr (Or.inr he)
  have hpaths : ∀ names i, resolve m names = some i → resolve m' names = some i := by
    intro names i hr
    exact (resolve_eq_some hi'.dirsReadable hE').mpr
      (((resolve_eq_some ht.inv.dirsReadable ht.distinct).mp hr).mono hmono)
  refine ⟨⟨tokens,c,hch.split,?_,h.freshFile htype⟩,hpaths,fun tokens' d' hsp hpar j a i he => ?_,
    ⟨d,k,(name,c),h.slot_none,hmap⟩⟩
  · have hparent : resolve m tokens.dropLast = some d := by
      rw [resolve, if_pos (by rw [hch.found, List.length_dropLast]), hch.parent]
    have hp := (resolve_eq_some hi'.dirsReadable hE').mp (hpaths _ _ hparent)
    have hne := splitPath_ne_nil hch.split
    have hlast : tokens = tokens.dropLast ++ [name] := by
      rw [← hch.last, List.getLastD_eq_getLast?, List.getLast?_eq_some_getLast hne]
      exact (List.dropLast_append_getLast hne).symm
    rw [resolve_eq_some hi'.dirsReadable hE', hlast]
    refine path_concat.mpr ⟨d,hp,k,?_⟩
    rw [hmap, update_self]
  · rw [hmap, update_of_ne, he]
    rintro ⟨rfl,rfl⟩
    rw [h.slot_none] at he
    cases he

end Created

/-- A successful `fs_create` adds one name and keeps the others if and only if the slots of its directory are kept. -/
theorem create_adds {s s' : F19FS} {path : PathArg} {type : FileT} (h : TidyReachable s)
    (hr : call s (.create (some path) type) = some (0,s')) :
    AddsName s.image s'.image path.chars type ↔ SlotsKept s.image path.chars := by
  have hi := h.tidy.inv
  have hi' : ImageInv s'.image := (step_inv (c := .create (some path) type) hi trivial (step_of_call hr)).1
  have heff : fsCreate s (pathOf (some path)) type = some (0,s') := hr
  rcases (fsCreate_effect hi heff).2 with ⟨h0,_⟩ | ⟨q,tokens,d,name,hq,htype,hch,⟨h0,_⟩ | ⟨_,k,b,c,hcr⟩⟩
  · cases h0
  · cases h0
  obtain rfl : path.chars = q := Option.some.inj hq
  have hname := hch.fits hq
  constructor
  · intro hadds tokens' d' name' hch' hvac j a i he
    obtain rfl := hch.unique hch'
    have h0 := hcr.slot_zero hvac
    rw [← hcr.blockFirst h0]
    exact hcr.slot_kept hname h.tidy.terminated he (hadds.siblings _ _ hch.split hch.createParent_eq j a i he)
  · intro hkept
    refine hcr.addsName h.tidy hi' hch hname htype (fun h0 j a i he => ?_)
    rw [hcr.blockFirst h0]
    exact hkept tokens d name hch (h0 ▸ hcr.vacant) j a i he

theorem pathD_nulFree : 0 ∉ ofChars ['/','d'] := by decide

/-- A directory `/d`, and a file to be put in it. -/
def pathD : PathArg := ⟨ofChars ['/','d'],pathD_nulFree⟩
def pathDF : PathArg := ⟨ofChars ['/','d','/','f'],by decide⟩

theorem create_adds_file : ∃ s s', run step fsFormat [.create (some pathD) .directory] = some s ∧
    call s (.create (some pathDF) .regular) = some (0,s') ∧
    (AddsName s.image s'.image pathDF.chars .regular ↔ SlotsKept s.image pathDF.chars) := by
  have hrun : (run (checked plainTidy step) fsFormat [.create (some pathD) .directory]).bind (fun s =>
      (call s (.create (some pathDF) .regular)).map (fun r => decide (r.1 = 0))) = some true := by
    decide +kernel
  obtain ⟨s,hs,hr⟩ := Option.bind_eq_some_iff.mp hrun
  obtain ⟨⟨ret,s'⟩,hr,h0⟩ := Option.map_eq_some_iff.mp hr
  obtain rfl : ret = 0 := of_decide_eq_true h0
  exact ⟨s,s',run_of_checked hs,hr,create_adds (tidyReachable_of_plain hs) hr⟩

/-- The calls of a run that creates, removes, opens and writes. -/
def fileCall : Call → Bool
  | .create _ _ | .remove _ | .openFile _ | .write _ _ _ => true
  | _ => false

/-- With `/a` removed the root takes another block for `/c`, and `/b` is lost. -/
theorem create_adds_fail : ¬ ∀ s s' (path : PathArg) type, Reach step (fun _ c => fileCall c = true) fsFormat s →
    call s (.create (some path) type) = some (0,s') → AddsName s.image s'.image path.chars type := by
  intro hall
  have hrun : (run (checked (fun _ c => fileCall c) step) fsFormat [.create (pathArg ['/','a']) .regular,
      .create (pathArg ['/','b']) .regular,.remove (pathArg ['/','a'])]).bind (fun s =>
      (call s (.create (pathArg ['/','c']) .regular)).map (fun r => decide (r.1 = 0) &&
        decide (resolve s.image [ofChars ['b']] = some 2) && decide (resolve r.2.image [ofChars ['b']] = none))) =
      some true := by
    decide +kernel
  obtain ⟨s,hs,hr⟩ := Option.bind_eq_some_iff.mp hrun
  obtain ⟨⟨ret,s'⟩,hr,hf⟩ := Option.map_eq_some_iff.mp hr
  simp only [Bool.and_eq_true, decide_eq_true_eq] at hf
  obtain ⟨⟨rfl,hold⟩,hnew⟩ := hf
  have hkept := (hall s s' ⟨ofChars ['/','c'],by decide⟩ .regular (reach_of_checked_run (fun _ _ hc => hc) hs) hr).kept _ _ hold
  rw [hnew] at hkept
  cases hkept

end LiteOSFS
