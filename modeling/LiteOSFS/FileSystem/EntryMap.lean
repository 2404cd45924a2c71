import LiteOSFS.FileSystem.Frame

/-! # The entries of all directories as one map

`entryAt m d j` is the name and the inode number in slot `j` of directory `d`, when
that slot is in use. The paths that the searches walk are paths along this map.
-/
namespace LiteOSFS
open Memory CString Ownership

def entryAt (m : Mem) (d j : ℕ) : Option (CStr × ℕ) :=
  if d < 256 ∧ j < 31 ∧ (inodeAt m d).fileType = typeDirectory ∧ (inodeAt m d).live j = true then
    some (entryName (blockAt m (inodeAt m d).dirBlock) j,entryInode (blockAt m (inodeAt m d).dirBlock) j)
  else none

section EntryAt
variable {m m' : Mem} {d j i : ℕ} {a : CStr}

theorem entryAt_eq_some : entryAt m d j = some (a,i) ↔
    (d < 256 ∧ j < 31 ∧ (inodeAt m d).fileType = typeDirectory ∧ (inodeAt m d).live j = true) ∧
      entryName (blockAt m (inodeAt m d).dirBlock) j = a ∧ entryInode (blockAt m (inodeAt m d).dirBlock) j = i := by
  unfold entryAt
  split_ifs with h
  · simp [h]
  · simp [h]

theorem entryAt_eq_none : entryAt m d j = none ↔
    ¬ (d < 256 ∧ j < 31 ∧ (inodeAt m d).fileType = typeDirectory ∧ (inodeAt m d).live j = true) := by
  unfold entryAt
  split_ifs with h
  · simp [h]
  · simp [h]

theorem entryAt_live (hd : d < 256) (hj : j < 31) (hdir : (inodeAt m d).fileType = typeDirectory)
    (hlive : (inodeAt m d).live j = true) : entryAt m d j =
      some (entryName (blockAt m (inodeAt m d).dirBlock) j,entryInode (blockAt m (inodeAt m d).dirBlock) j) :=
  if_pos ⟨hd,hj,hdir,hlive⟩

theorem entryAt_lt (h : entryAt m d j = some (a,i)) : i < 256 := by
  rw [← (entryAt_eq_some.mp h).2.2]
  exact entryInode_lt _ _

theorem entryAt_of_file (hfile : (inodeAt m d).fileType ≠ typeDirectory) : entryAt m d j = none :=
  entryAt_eq_none.mpr (fun h => hfile h.2.2.1)

theorem SameInode.entryAt_eq (h : SameInode m m' d) (hi : ImageInv m) (j : ℕ) : entryAt m' d j = entryAt m d j := by
  unfold entryAt
  rw [h.record]
  split_ifs with hc
  · rw [h.dirBlock_eq ((hi.record d hc.1).block hc.2.2.1 j hc.2.1 hc.2.2.2)]
  · rfl

/-- A slot whose bytes are kept in the block that the directory then has, with the name ending in the slot. -/
theorem entryAt_slot (hrec : (inodeAt m' d).fileType = (inodeAt m d).fileType)
    (hlive : (inodeAt m' d).live j = (inodeAt m d).live j)
    (hslot : SlotEq (blockAt m' (inodeAt m' d).dirBlock) (blockAt m (inodeAt m d).dirBlock) j)
    (hterm : ∀ a i, entryAt m d j = some (a,i) → a.length < 32) : entryAt m' d j = entryAt m d j := by
  cases he : entryAt m d j with
  | none =>
    rw [entryAt_eq_none] at he ⊢
    rwa [hrec, hlive]
  | some r =>
    obtain ⟨a,i⟩ := r
    obtain ⟨⟨hd,hj,hdir,hl⟩,rfl,rfl⟩ := entryAt_eq_some.mp he
    rw [entryAt_live hd hj (hrec.trans hdir) (hlive.trans hl), hslot.entryInode_eq]
    have hn := (hslot.entryName_eq (zero_not_mem_read _ _ _) (hterm _ _ he)).mpr rfl
    rw [hn]
    rfl

end EntryAt

/-- Two records that show the same entries in a directory's block. -/
structure SameEntries (x y : Inode) : Prop where
  fileType : x.fileType = y.fileType
  dirBlock : x.dirBlock = y.dirBlock
  live : ∀ j < 31, x.live j = y.live j

theorem SameEntries.refl (x : Inode) : SameEntries x x := ⟨rfl,rfl,fun _ _ => rfl⟩

theorem SameEntries.links (x : Inode) (links : UInt64) : SameEntries { x with linkCount := links } x :=
  ⟨rfl,rfl,fun _ _ => rfl⟩

/-- A name that fits its slot: no NUL in it, and room for one after it. -/
def FitsSlot (name : CStr) : Prop := 0 ∉ name ∧ name.length < 32

/-- Every entry's name ends inside its slot. -/
def Terminated (m : Mem) : Prop := ∀ d j a i, entryAt m d j = some (a,i) → a.length < 32

section Create
variable {m m' : Mem} {p k b c : ℕ} {name : CStr} {type : FileT}

theorem live_childInode (type : FileT) (c : ℕ) {j : ℕ} (hj : j < 31) : (childInode type c).live j = false := by
  rw [Inode.live_eq _ hj]
  simp [childInode, Inode.cleared]

/-- The entries after `fs_create`, when its block holds the entries that the directory has. -/
theorem Created.entryAt_eq_kept (h : Created m p name type m' k b c) (hi : ImageInv m) (hp : p < 256)
    (hdir : (inodeAt m p).fileType = typeDirectory) (hname : FitsSlot name) (hterm : Terminated m)
    (hkeep : k = 0 → ∀ j a i, entryAt m p j = some (a,i) →
      entryName (blockAt m b) j = a ∧ entryInode (blockAt m b) j = i) (d j : ℕ) :
    entryAt m' d j = if d = p ∧ j = k then some (name,c) else entryAt m d j := by
  have hcp := h.child_ne_parent hi hp hdir
  have hlt := h.block.1.2
  by_cases hd : d < 256
  swap
  · have hm : ∀ m'' : Mem, entryAt m'' d j = none := fun m'' => entryAt_eq_none.mpr (fun hc => hd hc.1)
    rw [hm, hm, if_neg (fun hc : d = p ∧ j = k => hd (hc.1 ▸ hp))]
  by_cases hdp : d = p
  swap
  · rw [if_neg (fun hc => hdp hc.1)]
    by_cases hdc : d = c
    · rw [hdc, entryAt_of_file (hi.file_of_free h.inodeLt h.inodeFree), entryAt_eq_none]
      rintro ⟨_,hj,_,hl⟩
      rw [h.child, live_childInode type c hj] at hl
      cases hl
    · exact (h.sameInode hi hp hd (Ne.symm hdp) (Ne.symm hdc)).entryAt_eq hi j
  subst hdp
  have hblk : (inodeAt m' d).dirBlock = b := by rw [h.parent, Inode.dirBlock_withEntry _ (by omega)]
  have hlive : ∀ j < 31, (inodeAt m' d).live j = ((inodeAt m d).live j || decide (k = j)) := by
    intro j hj
    rw [h.parent, Inode.live_withEntry _ h.slot hj]
  have hdir' : (inodeAt m' d).fileType = typeDirectory := by
    rw [h.parent]
    exact hdir
  by_cases hjk : j = k
  · subst hjk
    have hl : (inodeAt m' d).live j = true := by rw [hlive j h.slot, decide_eq_true rfl, Bool.or_true]
    have hs : SlotEq (window (putEntry (blockAt m b) j name c) 0 1024) (putEntry (blockAt m b) j name c) j :=
      slotEq_window h.slot
    rw [if_pos ⟨rfl,rfl⟩, entryAt_live hd h.slot hdir' hl, hblk, h.entry, hs.entryInode_eq,
      entryInode_putEntry h.inodeLt, (hs.entryName_eq hname.1 hname.2).mpr (entryName_putEntry hname.1 hname.2)]
  rw [if_neg (fun hc => hjk hc.2)]
  by_cases hj : j < 31
  swap
  · rw [entryAt_eq_none.mpr (fun hc => hj hc.2.1), entryAt_eq_none.mpr (fun hc => hj hc.2.1)]
  have hsame : (inodeAt m' d).live j = (inodeAt m d).live j := by
    rw [hlive j hj, decide_eq_false (Ne.symm hjk), Bool.or_false]
  have hslot : SlotEq (blockAt m' b) (blockAt m b) j := by
    rw [h.entry]
    intro x hx
    rw [slotEq_window hj x hx, slotEq_putEntry hname.2 (Ne.symm hjk) x hx]
  rcases h.block.2 with ⟨h0,_⟩ | ⟨_,hb⟩
  · cases he : entryAt m d j with
    | none =>
      rw [entryAt_eq_none] at he ⊢
      rwa [hsame, h.parent]
    | some r =>
      obtain ⟨a,i⟩ := r
      obtain ⟨hn,hi'⟩ := hkeep h0 j a i he
      obtain ⟨⟨_,_,_,hl⟩,ha,_⟩ := entryAt_eq_some.mp he
      rw [entryAt_live hd hj hdir' (hsame.trans hl), hblk, hslot.entryInode_eq, hi',
        (hslot.entryName_eq (ha ▸ zero_not_mem_read _ _ _) (hterm d j a i he)).mpr hn]
  · refine entryAt_slot (by rw [h.parent]; rfl) hsame ?_ (hterm d j)
    rwa [hblk, ← hb]

/-- The entries after `fs_create`, unless its directory has entries but none in slot 0. -/
theorem Created.entryAt_eq (h : Created m p name type m' k b c) (hi : ImageInv m) (hp : p < 256)
    (hdir : (inodeAt m p).fileType = typeDirectory) (hname : FitsSlot name) (hterm : Terminated m)
    (hfirst : k = 0 → ∀ j < 31, (inodeAt m p).live j = false) (d j : ℕ) :
    entryAt m' d j = if d = p ∧ j = k then some (name,c) else entryAt m d j := by
  refine h.entryAt_eq_kept hi hp hdir hname hterm (fun h0 j a i he => ?_) d j
  obtain ⟨⟨_,hj,_,hl⟩,_⟩ := entryAt_eq_some.mp he
  rw [hfirst h0 j hj] at hl
  cases hl

end Create

section Walk
variable {m : Mem}

/-- The slots of a directory that a component of a path matches. -/
def matching (m : Mem) (d : ℕ) (name : CStr) : List ℕ :=
  (List.range 31).filter (fun j => (inodeAt m d).live j && entryName (blockAt m (inodeAt m d).dirBlock) j == name)

/-- A loop that counts its matches and keeps the last one. -/
theorem foldl_count (p : ℕ → Bool) (f : ℕ → ℕ) (l : List ℕ) (w : Walk) :
    l.foldl (fun w j => if p j then { w with inodeID := f j, indicator := w.indicator + 1 } else w) w =
      ⟨((l.filter p).getLast?.map f).getD w.inodeID,w.indicator + (l.filter p).length,w.data⟩ := by
  induction l using List.reverseRecOn with
  | nil => rfl
  | append_singleton l j ih =>
    rw [List.foldl_append, ih, List.filter_append]
    cases hp : p j with
    | true => simp [hp, Nat.add_assoc]
    | false => simp [hp]

theorem walkStep_directory {w : Walk} (hw : w.inodeID < 256) (hb : (inodeAt m w.inodeID).dirBlock ≤ 65528)
    (hdir : (inodeAt m w.inodeID).fileType = typeDirectory) (token : CStr) : walkStep m w token =
      ⟨((matching m w.inodeID token).getLast?.map (entryInode (blockAt m (inodeAt m w.inodeID).dirBlock))).getD w.inodeID,
        w.indicator + (matching m w.inodeID token).length,blockAt m (inodeAt m w.inodeID).dirBlock⟩ := by
  have hbit : ∀ j ∈ List.range 31, ((inodeAt m w.inodeID).vacantBit j &&
      entryName (blockAt m (inodeAt m w.inodeID).dirBlock) j == token) = ((inodeAt m w.inodeID).live j &&
      entryName (blockAt m (inodeAt m w.inodeID).dirBlock) j == token) := by
    intro j hj
    rw [Inode.vacantBit_eq _ (List.mem_range.mp hj)]
  unfold walkStep
  simp only [blockStoreInodeRead_table hw, Option.getD_some, hdir, if_true, blockStoreRead_data hb]
  rw [foldl_count, matching, List.filter_congr hbit]

theorem walkStep_file {w : Walk} (hw : w.inodeID < 256) (hfile : (inodeAt m w.inodeID).fileType ≠ typeDirectory)
    (token : CStr) : walkStep m w token = w := by
  unfold walkStep
  simp only [blockStoreInodeRead_table hw, Option.getD_some, if_neg hfile]

/-- One component leaves the walk where it is or takes it along an entry. -/
theorem walkStep_cases (h : ImageInv m) {w : Walk} (hw : w.inodeID < 256) (token : CStr) :
    (walkStep m w token).inodeID = w.inodeID ∨
      ∃ j, entryAt m w.inodeID j = some (token,(walkStep m w token).inodeID) := by
  by_cases hdir : (inodeAt m w.inodeID).fileType = typeDirectory
  swap
  · exact Or.inl (by rw [walkStep_file hw hdir])
  rw [walkStep_directory hw (h.dirBlock_le hw) hdir]
  cases hl : (matching m w.inodeID token).getLast? with
  | none => exact Or.inl rfl
  | some j =>
    right
    obtain ⟨hmem,hmatch⟩ := List.mem_filter.mp (List.mem_of_getLast? hl)
    rw [Bool.and_eq_true, beq_iff_eq] at hmatch
    refine ⟨j,?_⟩
    rw [entryAt_live hw (List.mem_range.mp hmem) hdir hmatch.1, hmatch.2]
    rfl

/-- What holds of the root and passes along entries holds where a walk ends. -/
theorem walk_induct {P : ℕ → Prop} (h : ImageInv m) (h0 : P 0)
    (hstep : ∀ d j a i, P d → entryAt m d j = some (a,i) → P i) (tokens : List CStr) : P (walk m tokens).inodeID := by
  have hfold : ∀ (tokens : List CStr) (w : Walk), w.inodeID < 256 → P w.inodeID →
      P (tokens.foldl (walkStep m) w).inodeID := by
    intro tokens
    induction tokens with
    | nil => exact fun _ _ hw => hw
    | cons token tokens ih =>
      intro w hlt hw
      rcases walkStep_cases h hlt token with he | ⟨j,he⟩
      · exact ih _ (by rwa [he]) (by rwa [he])
      · exact ih _ (entryAt_lt he) (hstep _ _ _ _ hw he)
  exact hfold tokens _ (by simp) h0

end Walk

end LiteOSFS
