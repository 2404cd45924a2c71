import LiteOSFS.FileSystem.Resolve
import LiteOSFS.FileSystem.Coverage

/-! # Failed calls

A failed `fs_create` has changed nothing but for one case: it takes a block for a
directory whose slot 0 is vacant before it looks for an inode, and keeps it when there
is none. A failed `fs_move` has changed nothing unless it had to make a directory
when of an inode and a block one was left. A failed `fs_remove` or `fs_link` has changed
nothing. The image in which all inodes are used is a
chain of directories.
-/
namespace LiteOSFS
open Memory CString Ownership Transition EntryGraph

theorem F19FS.eq_iff {s s' : F19FS} : s' = s ↔ s'.image = s.image ∧ s'.fdTable = s.fdTable := by
  cases s
  cases s'
  exact F19FS.mk.injEq .. ▸ Iff.rfl

/-- `fs_create` takes a block and finds no inode. -/
def CreateLeaks (s : F19FS) (path : Option PathArg) (type : FileT) : Prop :=
  type ≠ .invalid ∧ ∃ p ∈ path, ∃ tokens d name, CreateChecked s.image p.chars tokens d name ∧
    (inodeAt s.image d).live 0 = false ∧ firstFreeInode s.image = sizeMax ∧ firstFree s.image ≠ sizeMax

theorem setUsed_ne {m : Mem} {b : ℕ} (h : used m b = false) : setUsed m b ≠ m := by
  intro he
  have hu := used_setUsed (m := m) (b := b) b
  rw [he, h, decide_eq_true rfl, Bool.true_or] at hu
  cases hu

theorem setInodeUsed_ne {m : Mem} {i : ℕ} (h : inodeUsed m i = false) : setInodeUsed m i ≠ m := by
  intro he
  have hu := inodeUsed_setInodeUsed (m := m) (j := i) i
  rw [he, h, decide_eq_true rfl, Bool.true_or] at hu
  cases hu

theorem putBlock_setUsed_ne {m : Mem} {b : ℕ} {data : Mem} (hb : DataId b) (h : used m b = false) :
    putBlock (setUsed m b) b data ≠ m := by
  intro he
  have hlt := hb.2
  have hu := used_putBlock (m := setUsed m b) (c := data) hb (show b < 65536 by omega)
  rw [he, h, used_setUsed, decide_eq_true rfl, Bool.true_or] at hu
  cases hu

/-- `fs_create` after its checks, with a block left for a vacant slot 0 and no inode. -/
theorem CreateChecked.leaks {s s' : F19FS} {path name : CStr} {tokens : List CStr} {d : ℕ} {type : FileT} {ret : ℤ}
    (h : CreateChecked s.image path tokens d name) (htype : type ≠ .invalid) (hi : ImageInv s.image)
    (hvac : (inodeAt s.image d).live 0 = false) (hfull : firstFreeInode s.image = sizeMax)
    (hfree : firstFree s.image ≠ sizeMax) (hc : fsCreate s (some path) type = some (ret,s')) : ret = -1 ∧ s' ≠ s := by
  rcases (h.effect htype hi hc).2 with ⟨_,hstop,_⟩ | ⟨hr,ht⟩ | ⟨_,k,b,c,hcr⟩
  · cases hstop with
    | taken hj hl hname => exact absurd hname (h.absent _ hj hl)
    | noBlock _ hf => exact absurd hf hfree
    | noInode hl _ =>
      rw [hvac] at hl
      cases hl
    | full hall =>
      rw [hall 0 (by omega)] at hvac
      cases hvac
  · refine ⟨hr,?_⟩
    rintro rfl
    exact setUsed_ne (firstFree_spec hi.sound.sys hfree).2.1 ht.image.symm
  · have hused := firstFreeInode_eq_sizeMax.mp hfull c hcr.inodeLt
    rw [hcr.inodeFree] at hused
    cases hused

/-- A failed `fs_create` leaves the state as it was, except when it runs out of inodes after it has taken
a block. -/
theorem create_atomic {s s' : F19FS} {path : Option PathArg} {type : FileT} {ret : ℤ} (h : Reachable s)
    (hc : call s (.create path type) = some (ret,s')) (hneg : ret < 0) : s' = s ↔ ¬ CreateLeaks s path type := by
  have hi := h.inv
  constructor
  · rintro hsame ⟨htype,p,hp,tokens,d,name,hchk,hvac,hfull,hfree⟩
    have hcp : fsCreate s (some p.chars) type = some (ret,s') := by
      rw [Option.mem_def.mp hp] at hc
      exact hc
    exact (hchk.leaks htype hi hvac hfull hfree hcp).2 hsame
  · intro hkeep
    obtain ⟨htab,heff⟩ := fsCreate_effect hi hc
    rcases heff with ⟨_,him⟩ | ⟨q,tokens,d,name,hq,htype,hchk,⟨_,ht⟩ | ⟨h0,_⟩⟩
    · exact F19FS.eq_iff.mpr ⟨him,htab⟩
    · obtain ⟨p,hp,rfl⟩ := mem_pathOf hq
      exact absurd ⟨htype,p,hp,tokens,d,name,hchk,ht.vacant,ht.inodesFull,ht.blockFree⟩ hkeep
    · omega

theorem create_atomic_missing : ∃ s', call fsFormat (.create (pathArg ['/','a','/','b']) .regular) = some (-1,s') ∧
    (s' = fsFormat ↔ ¬ CreateLeaks fsFormat (pathArg ['/','a','/','b']) .regular) := by
  have hc : (call fsFormat (.create (pathArg ['/','a','/','b']) .regular)).map Prod.fst = some (-1) := by decide +kernel
  obtain ⟨⟨ret,s'⟩,hc,rfl⟩ := Option.map_eq_some_iff.mp hc
  exact ⟨s',hc,create_atomic Reach.refl hc (by decide)⟩

/-- `fs_move` that has to make a directory when one of an inode and a block is missing. -/
theorem MoveChecked.leaks {m : Mem} {src dst : CStr} (h : MoveChecked m src dst) (hi : ImageInv m)
    (hl : MoveLeaks m dst) (junk : Inode) : ∃ m', fsMoveImage m src dst junk = some (-10,m') ∧ m' ≠ m := by
  obtain ⟨hex,hroom,hone⟩ := hl
  obtain ⟨hd,_⟩ := parentOf_spec hi h.dstParent
  obtain ⟨r,m',hcr⟩ : ∃ r m', create2In m (parentOf m dst) (inodeAt m (parentOf m dst))
    (blockAt m (inodeAt m (parentOf m dst)).dirBlock) (basename dst) .directory junk = (r,m') := ⟨_,_,rfl⟩
  have hmove : r ≠ 0 → fsMoveImage m src dst junk = some (-10,m') := by
    intro hr
    rw [h.image_eq, moveIn, hex]
    simp only [Bool.false_eq_true, if_false, fsCreate2_eq hi h hex, hcr]
    rw [if_neg hroom]
    exact if_pos hr
  refine ⟨m',?_⟩
  rcases create2In_cases hi hd hcr with ⟨hr,hf,⟨hif,_⟩ | ⟨hif,rfl⟩⟩ | ⟨hr,hif,hf,rfl⟩ | ⟨_,hif,hf,_⟩
  · exact absurd ⟨fun _ => hf,fun _ => hif⟩ hone
  · exact ⟨hmove hr,setInodeUsed_ne (firstFreeInode_spec hif).2.1⟩
  · obtain ⟨hb,hfree,_⟩ := firstFree_spec hi.sound.sys hf
    exact ⟨hmove hr,putBlock_setUsed_ne hb hfree⟩
  · exact absurd ⟨fun he => absurd he hif,fun he => absurd he hf⟩ hone

/-- A failed `fs_move` leaves the state as it was, except when it has to make a directory and finds one of an
inode and a block only. -/
theorem move_atomic {s s' : F19FS} {src dst : Option PathArg} {junk : Inode} {ret : ℤ} (h : Reachable s)
    (hsafe : Safe s (.move src dst junk)) (hc : call s (.move src dst junk) = some (ret,s')) (hneg : ret < 0) :
    s' = s ↔ ¬ ∃ p ∈ src, ∃ q ∈ dst, MoveChecked s.image p.chars q.chars ∧ MoveLeaks s.image q.chars := by
  have hi := h.inv
  constructor
  · rintro rfl ⟨p,hp,q,hq,hchk,hleak⟩
    have hcp : fsMove s' (some p.chars) (some q.chars) junk = some (ret,s') := by
      rw [Option.mem_def.mp hp, Option.mem_def.mp hq] at hc
      exact hc
    obtain ⟨m',hr,hne⟩ := hchk.leaks hi hleak junk
    rw [fsMove, hr] at hcp
    exact hne (congrArg F19FS.image (Prod.mk.inj (Option.some.inj hcp)).2)
  · intro hkeep
    have hms : ∀ p ∈ pathOf src, ∀ q ∈ pathOf dst, MoveSafe s.image p q := by
      intro p hp q hq
      obtain ⟨a,ha,rfl⟩ := mem_pathOf hp
      obtain ⟨b,hb,rfl⟩ := mem_pathOf hq
      exact hsafe a ha b hb
    obtain ⟨htab,heff⟩ := fsMove_result hi (nulFree_pathOf src) (nulFree_pathOf dst) hms hc
    rcases heff with ⟨_,him⟩ | ⟨p,q,hp,hq,hchk,hr⟩
    · exact F19FS.eq_iff.mpr ⟨him,htab⟩
    obtain ⟨a,ha,rfl⟩ := mem_pathOf hp
    obtain ⟨b,hb,rfl⟩ := mem_pathOf hq
    have hkeep : ¬ MoveLeaks s.image b.chars := fun hl => hkeep ⟨a,ha,b,hb,hchk,hl⟩
    generalize hm' : s'.image = m' at hr
    cases hr with
    | stop => exact F19FS.eq_iff.mpr ⟨hm',htab⟩
    | inodeTaken _ hex hroom hf hif => exact absurd ⟨hex,hroom,fun he => hif (he.mpr hf)⟩ hkeep
    | blockTaken _ hex hroom hif hf => exact absurd ⟨hex,hroom,fun he => hf (he.mp hif)⟩ hkeep
    | moved => omega
    | made => omega

theorem move_atomic_missing : ∃ s', call fsFormat (.move (pathArg ['/','a']) (pathArg ['/','b','c']) Inode.cleared) =
    some (-8,s') ∧ (s' = fsFormat ↔ ¬ ∃ p ∈ pathArg ['/','a'], ∃ q ∈ pathArg ['/','b','c'],
      MoveChecked fsFormat.image p.chars q.chars ∧ MoveLeaks fsFormat.image q.chars) := by
  have hc : (call fsFormat (.move (pathArg ['/','a']) (pathArg ['/','b','c']) Inode.cleared)).map Prod.fst = some (-8) := by
    decide +kernel
  have hsafe : Safe fsFormat (.move (pathArg ['/','a']) (pathArg ['/','b','c']) Inode.cleared) := by
    intro p hp q _ hchk
    have hmiss : checkFileExist fsFormat.image (parentOf fsFormat.image p.chars) (basename p.chars) = false := by
      obtain rfl := Option.some.inj hp
      decide +kernel
    rw [hchk.srcExists] at hmiss
    cases hmiss
  obtain ⟨⟨ret,s'⟩,hc,rfl⟩ := Option.map_eq_some_iff.mp hc
  exact ⟨s',hc,move_atomic Reach.refl hsafe hc (by decide)⟩

section Chain

theorem component_d : Component [100] := ⟨by simp,by decide⟩

/-- `/d/d/…` with `n` components. -/
def chainPath (n : ℕ) : PathArg := ⟨joinPath (List.replicate n [100]),by
  intro h
  obtain ⟨name,hn,h0⟩ := List.mem_flatMap.mp h
  rw [List.eq_of_mem_replicate hn] at h0
  exact absurd h0 (by decide)⟩

theorem component_replicate (n : ℕ) : ∀ name ∈ List.replicate n ([100] : CStr), Component name := by
  intro name hn
  rw [List.eq_of_mem_replicate hn]
  exact component_d

theorem splitPath_chainPath {n : ℕ} (hn : n < 256) :
    splitPath (chainPath (n + 1)).chars = some (some (List.replicate (n + 1) [100])) := by
  refine splitPath_joinPath (by simp) (component_replicate _) (fun name hname => ?_) ?_
  · rw [List.eq_of_mem_replicate hname]
    decide
  · rw [joinPath, List.length_flatMap]
    simp
    omega

/-- Inode `i` is a directory whose one entry is inode `i + 1`, up to the empty directory `n`. -/
structure Chain (s : F19FS) (n : ℕ) : Prop where
  reach : Reachable s
  bits : ∀ i < 256, inodeUsed s.image i = decide (i ≤ n)
  marks : ∀ b, DataId b → used s.image b = true → b < 17 + n
  directory : ∀ i ≤ n, (inodeAt s.image i).fileType = typeDirectory
  entry : ∀ d j, entryAt s.image d j = if d < n ∧ j = 0 then some ([100],d + 1) else none

theorem chain_fsFormat : Chain fsFormat 0 := by
  refine ⟨Reach.refl,by decide +kernel,fun b hb hu => ?_,fun i hi => ?_,fun d j => ?_⟩
  · rw [used_fsFormat hb] at hu
    cases hu
  · obtain rfl : i = 0 := by omega
    exact fsFormat_inv.root
  · rw [if_neg (fun h => absurd h.1 (Nat.not_lt_zero d)), entryAt_eq_none]
    rintro ⟨hd,hj,_,hl⟩
    rw [inodeAt_fsFormat hd, Inode.live_eq _ hj] at hl
    split_ifs at hl <;> simp [rootInode, Inode.cleared] at hl

variable {s : F19FS} {n : ℕ}

theorem Chain.distinct (h : Chain s n) : Distinct (entryAt s.image) := by
  intro d j j' a i i' hj hj'
  rw [h.entry] at hj hj'
  split_ifs at hj hj' with hc hc'
  exact hc.2.trans hc'.2.symm

theorem Chain.terminated (h : Chain s n) : Terminated s.image := by
  intro d j a i he
  rw [h.entry] at he
  split_ifs at he
  cases he
  decide

theorem Chain.path (h : Chain s n) {k : ℕ} (hk : k ≤ n) : Path (entryAt s.image) 0 (List.replicate k [100]) k := by
  induction k with
  | zero => exact Path.nil 0
  | succ k ih =>
    rw [List.replicate_succ']
    refine path_concat.mpr ⟨k,ih (by omega),0,?_⟩
    rw [h.entry, if_pos ⟨hk,rfl⟩]

theorem Chain.empty (h : Chain s n) (hn : n < 256) {j : ℕ} (hj : j < 31) : (inodeAt s.image n).live j = false := by
  have he := h.entry n j
  rw [if_neg (fun hc => lt_irrefl n hc.1), entryAt_eq_none] at he
  by_contra hl
  exact he ⟨hn,hj,h.directory n le_rfl,by simpa using hl⟩

/-- The next call of the chain passes the checks of `fs_create`. -/
theorem Chain.checked (h : Chain s n) (hn : n < 256) :
    CreateChecked s.image (chainPath (n + 1)).chars (List.replicate (n + 1) [100]) n [100] := by
  have hdrop : (List.replicate (n + 1) ([100] : CStr)).dropLast = List.replicate n [100] := by simp
  obtain ⟨hid,hind⟩ := walk_of_path h.reach.inv.dirsReadable h.distinct (h.path le_rfl)
  refine ⟨splitPath_chainPath hn,?_,?_,?_,h.directory n le_rfl,?_,fun j hj hl => ?_⟩
  · exact List.all_eq_true.mpr (fun name hname => by rw [List.eq_of_mem_replicate hname]; decide)
  · rw [hdrop, hind]
    simp
  · rw [hdrop, hid]
  · rw [List.replicate_succ', List.getLastD_concat]
  · rw [h.empty hn hj] at hl
    cases hl

/-- The state that creates the next directory. -/
theorem Chain.step (h : Chain s n) (hn : n < 255) :
    ∃ s', step s (.create (some (chainPath (n + 1))) .directory) = some s' ∧ Chain s' (n + 1) := by
  have hi := h.reach.inv
  have hchk := h.checked (by omega)
  have hlt : n < 256 := by omega
  obtain ⟨ret,s',hc⟩ : ∃ ret s', fsCreate s (some (chainPath (n + 1)).chars) .directory = some (ret,s') :=
    ⟨_,_,hchk.call_eq (by decide)⟩
  have hcall : LiteOSFS.step s (.create (some (chainPath (n + 1))) .directory) = some s' := step_of_call hc
  refine ⟨s',hcall,?_⟩
  have hfree : inodeUsed s.image (n + 1) = false := by
    rw [h.bits _ (by omega)]
    simp
  have hfirst : firstFreeInode s.image = n + 1 := firstFreeInode_eq (by omega) hfree (fun i hin => by
    rw [h.bits i (by omega), decide_eq_true_eq]
    omega)
  have hinode : firstFreeInode s.image ≠ sizeMax := by
    rw [hfirst]
    unfold sizeMax
    omega
  have hroom : DataId (17 + n) ∧ used s.image (17 + n) = false := by
    have hd : DataId (17 + n) := ⟨by omega,by omega⟩
    refine ⟨hd,?_⟩
    by_contra hu
    exact lt_irrefl _ (h.marks _ hd (by simpa using hu))
  have hblock : firstFree s.image ≠ sizeMax := fun hf => by
    have hu := firstFree_eq_sizeMax hf (17 + n) (by omega)
    rw [hroom.2] at hu
    cases hu
  have hempty := fun j hj => h.empty hlt (j := j) hj
  rcases (hchk.effect (by decide) hi hc).2 with ⟨_,hstop,_⟩ | ⟨_,ht⟩ | ⟨_,k,b,c,hcr⟩
  · cases hstop with
    | taken hj hl hname => exact absurd hname (hchk.absent _ hj hl)
    | noBlock _ hf => exact absurd hf hblock
    | noInode _ hf => exact absurd hf hinode
    | full hall =>
      have hl := hall 0 (by omega)
      rw [hempty 0 (by omega)] at hl
      cases hl
  · exact absurd ht.inodesFull hinode
  obtain rfl : k = 0 := by
    by_contra hk
    have hl := hcr.packed 0 (by omega)
    rw [hempty 0 (by omega)] at hl
    cases hl
  obtain rfl : c = n + 1 := hcr.inodeFirst.trans hfirst
  have hb : b ≤ 17 + n := by
    rw [hcr.blockFirst rfl]
    by_contra hgt
    have hu := (firstFree_spec hi.sound.sys hblock).2.2 (17 + n) (by omega)
    rw [hroom.2] at hu
    cases hu
  have hsafe : Safe s (.create (some (chainPath (n + 1))) .directory) := trivial
  refine ⟨h.reach.tail hsafe hcall,fun i hin => ?_,fun x hx hu => ?_,fun i hin => ?_,fun d j => ?_⟩
  · rw [hcr.bits i hin, h.bits i hin, ← Bool.decide_or, decide_eq_decide]
    omega
  · have hx2 := hx.2
    rw [hcr.marks x (by omega), Bool.or_eq_true, decide_eq_true_eq] at hu
    rcases hu with rfl | hu
    · omega
    · have hlt := h.marks x hx hu
      omega
  · by_cases h1 : n + 1 = i
    · rw [← h1, hcr.child]
      rfl
    · by_cases h2 : n = i
      · rw [← h2, hcr.parent]
        exact h.directory n le_rfl
      · rw [hcr.others i (by omega) h2 h1]
        exact h.directory i (by omega)
  · rw [hcr.entryAt_eq hi hlt (h.directory n le_rfl) ⟨by decide,by decide⟩ h.terminated (fun _ => hempty), h.entry]
    by_cases hd : d = n
    · subst hd
      by_cases hj : j = 0
      · simp [hj]
      · simp [hj]
    · have hiff : (d < n + 1 ∧ j = 0) ↔ (d < n ∧ j = 0) := by omega
      rw [if_neg (fun hc => hd hc.1)]
      simp only [hiff]

/-- The chain that uses all inodes. -/
theorem exists_chain {n : ℕ} (hn : n ≤ 255) : ∃ s, Chain s n := by
  induction n with
  | zero => exact ⟨fsFormat,chain_fsFormat⟩
  | succ n ih =>
    obtain ⟨s,h⟩ := ih (by omega)
    obtain ⟨s',_,h'⟩ := h.step (by omega)
    exact ⟨s',h'⟩

/-- When all inodes are used there are blocks left. -/
theorem Chain.full {s : F19FS} (h : Chain s 255) : firstFreeInode s.image = sizeMax ∧ firstFree s.image ≠ sizeMax := by
  refine ⟨firstFreeInode_eq_sizeMax.mpr (fun i hin => ?_),fun hf => ?_⟩
  · rw [h.bits i hin, decide_eq_true_eq]
    omega
  · have hlt := h.marks 300 ⟨by decide,by decide⟩ (firstFree_eq_sizeMax hf 300 (by decide))
    exact absurd hlt (by decide)

end Chain

theorem create_not_atomic : ¬ ∀ s s' path type ret, Reach step (fun _ _ => True) fsFormat s →
    call s (.create path type) = some (ret,s') → ret < 0 → s' = s := by
  intro h
  obtain ⟨s,hch⟩ := exists_chain (n := 255) le_rfl
  have hi := hch.reach.inv
  have hchk := hch.checked (by decide)
  obtain ⟨hfull,hfree⟩ := hch.full
  obtain ⟨ret,s',hc⟩ : ∃ ret s', fsCreate s (some (chainPath 256).chars) .directory = some (ret,s') :=
    ⟨_,_,hchk.call_eq (by decide)⟩
  obtain ⟨rfl,hne⟩ := hchk.leaks (by decide) hi (hch.empty (by decide) (by decide)) hfull hfree hc
  exact hne (h s s' (some (chainPath 256)) .directory _ (hch.reach.mono (fun _ _ _ => trivial)) hc (by decide))

/-- In the full chain the root has the entry `d` and no other. -/
theorem Chain.moveChecked {s : F19FS} (h : Chain s 255) :
    MoveChecked s.image (ofChars ['/','d']) (ofChars ['/','x','x']) ∧ MoveLeaks s.image (ofChars ['/','x','x']) := by
  have hi := h.reach.inv
  obtain ⟨hfull,hfree⟩ := h.full
  have hroot : ∀ path : CStr, strtok slash (dirname path) = [] → parentOf s.image path = 0 := by
    intro path hp
    rw [parentOf, hp]
    rfl
  have hs := hroot (ofChars ['/','d']) (by decide)
  have hd := hroot (ofChars ['/','x','x']) (by decide)
  have hname : basename (ofChars ['/','x','x']) = [120,120] := by decide
  have hentry : entryAt s.image 0 0 = some ([100],1) := by rw [h.entry, if_pos ⟨by omega,rfl⟩]
  obtain ⟨⟨_,_,_,hlive⟩,hdname,_⟩ := entryAt_eq_some.mp hentry
  have hsrc : checkFileExist s.image 0 (basename (ofChars ['/','d'])) = true := by
    rw [checkFileExist_eq hi (by decide)]
    obtain ⟨k,hk⟩ : ∃ k, firstEntry (inodeAt s.image 0) (sameName (blockAt s.image (inodeAt s.image 0).dirBlock) ·
        (basename (ofChars ['/','d']))) = some k :=
      firstEntry_isSome (show 0 < 31 by omega) hlive ((sameName_iff (by decide)).mpr (by rw [hdname]; decide))
    rw [hk]
    rfl
  have hdst : checkFileExist s.image 0 (basename (ofChars ['/','x','x'])) = false := by
    rw [checkFileExist_eq hi (by decide), hname]
    cases hf : firstEntry (inodeAt s.image 0) (sameName (blockAt s.image (inodeAt s.image 0).dirBlock) · [120,120]) with
    | none => rfl
    | some j =>
      obtain ⟨hj,hl,hsame,_⟩ := firstEntry_some hf
      have he := entryAt_live (by decide) hj hi.root hl
      rw [(sameName_iff (by decide)).mp hsame, h.entry] at he
      split_ifs at he
      obtain ⟨hn,_⟩ := Prod.mk.inj (Option.some.inj he)
      exact absurd hn (by decide)
  have hroom : (inodeAt s.image 0).entryCount ≠ 31 := by
    intro hc
    have he := h.entry 0 1
    rw [if_neg (fun hc => absurd hc.2 (by decide)), entryAt_eq_none] at he
    exact he ⟨by decide,by decide,hi.root,Inode.entryCount_full.mp hc 1 (by decide)⟩
  refine ⟨⟨by decide,by decide,by decide,by decide,by decide,by decide,by decide,by decide,?_,?_,?_⟩,?_,?_,?_⟩
  · rw [hs]
    decide
  · rw [hs]
    exact hsrc
  · rw [hd]
    decide
  · rw [hd]
    exact hdst
  · rw [hd]
    exact hroom
  · exact fun he => hfree (he.mp hfull)

theorem move_not_atomic : ¬ ∀ s s' src dst junk ret, Reach step (fun _ _ => True) fsFormat s →
    call s (.move src dst junk) = some (ret,s') → ret < 0 → s' = s := by
  intro h
  obtain ⟨s,hch⟩ := exists_chain (n := 255) le_rfl
  obtain ⟨hchk,hleak⟩ := hch.moveChecked
  obtain ⟨m',hm,hne⟩ := hchk.leaks hch.reach.inv hleak Inode.cleared
  have hc : call s (.move (pathArg ['/','d']) (pathArg ['/','x','x']) Inode.cleared) =
      some (-10,{ s with image := m' }) := by
    show fsMove s (some (ofChars ['/','d'])) (some (ofChars ['/','x','x'])) Inode.cleared = _
    rw [fsMove, hm]
    rfl
  exact hne (congrArg F19FS.image (h s _ _ _ _ _ (hch.reach.mono (fun _ _ _ => trivial)) hc (by decide)))

section Unlink
variable {m m' : Mem} {ret : ℤ}

/-- Past the directory check `fs_remove` returns 0 or has changed nothing. -/
theorem removeIn_atomic {dirID : ℕ} {name : CStr} (hid : getFileInodeID m dirID name ≠ 0)
    (h : removeIn m dirID (getFileInodeID m dirID name) name = some (ret,m')) : ret = 0 ∨ m' = m := by
  have hunlink : ∀ {m₁ m' : Mem} {parent : Inode} {dir : Mem} {ret : ℤ}, readDir m dirID = some (parent,dir) →
      unlinkInode m₁ dirID (getFileInodeID m dirID name) parent dir name = (ret,m') → ret = 0 := by
    intro m₁ m' parent dir ret hdir hu
    obtain ⟨k,hk⟩ := getFileIndexInDir_found hdir hid
    rw [unlinkInode, hk] at hu
    cases hu
    rfl
  rw [removeIn] at h
  cases hdir : readDir m dirID with
  | none =>
    rw [hdir] at h
    cases h
    exact Or.inr rfl
  | some r =>
    obtain ⟨parent,dir⟩ := r
    rw [hdir] at h
    cases hfile : blockStoreInodeRead m inodeStore (getFileInodeID m dirID name) with
    | none =>
      rw [hfile] at h
      cases h
      exact Or.inr rfl
    | some file =>
      rw [hfile] at h
      simp only at h
      split_ifs at h with hreg hlinks hdirectory
      · cases h
        exact Or.inl rfl
      · obtain ⟨m₁,_,hu⟩ := Option.map_eq_some_iff.mp h
        exact Or.inl (hunlink hdir hu)
      · -- a directory that is not empty, or whose block cannot be read
        right
        have hr := Option.some.inj h
        rw [releaseDirectory] at hr hdirectory
        split_ifs at hr hdirectory with hempty
        · cases hr
          rfl
        · cases hb : blockStoreRead m wholeStore file.dirBlock with
          | none =>
            rw [hb] at hr
            cases hr
            rfl
          | some block =>
            rw [hb] at hdirectory
            exact absurd rfl hdirectory
      · exact Or.inl (hunlink hdir (Option.some.inj h))

theorem return_atomic {c : Prop} [Decidable c] {k : ℤ} {r : ℤ × Mem} (h : r.1 = 0 ∨ r.2 = m) :
    (if c then (k,m) else r).1 = 0 ∨ (if c then (k,m) else r).2 = m := by
  by_cases hc : c
  · rw [if_pos hc]
    exact Or.inr rfl
  · rwa [if_neg hc]

/-- Every return of `fs_link` but the last comes before the first store. -/
theorem fsLinkImage_atomic (src dst : CStr) : (fsLinkImage m src dst).1 = 0 ∨ (fsLinkImage m src dst).2 = m := by
  have hentry : ∀ i j name, (linkEntry m i j name).1 = 0 ∨ (linkEntry m i j name).2 = m :=
    fun _ _ _ => return_atomic (Or.inl rfl)
  exact return_atomic (return_atomic (return_atomic (return_atomic (return_atomic (return_atomic (return_atomic
    (return_atomic (return_atomic (return_atomic (hentry _ _ _))))))))))

end Unlink

/-- In every state, whatever the paths: a failed `fs_remove` or `fs_link` leaves the state as it was, and the
search for the slot, which comes after the blocks are freed, finds one. -/
theorem remove_link_atomic (s : F19FS) :
    (∀ path ret s', fsRemove s path = some (ret,s') → ret < 0 → s' = s) ∧
    (∀ src dst, (fsLink s src dst).1 < 0 → (fsLink s src dst).2 = s) ∧
    ∀ path fileID parent dir, removeTarget s.image path = some fileID →
      readDir s.image (parentOf s.image path) = some (parent,dir) →
      getFileIndexInDir parent dir (basename path) ≠ none := by
  refine ⟨fun path ret s' h hret => ?_,fun src dst hret => ?_,fun path fileID parent dir ht hd => ?_⟩
  · rcases fsRemove_cases h with ⟨_,he⟩ | ⟨p,_,_,hid,_,hr,hfd⟩
    · exact he
    · rcases removeIn_atomic hid hr with h0 | him
      · omega
      · exact F19FS.eq_iff.mpr ⟨him,hfd⟩
  · cases src with
    | none => rfl
    | some src =>
      cases dst with
      | none => rfl
      | some dst =>
        have hret' : (fsLinkImage s.image src dst).1 < 0 := hret
        rcases fsLinkImage_atomic (m := s.image) src dst with h0 | him
        · omega
        · exact F19FS.eq_iff.mpr ⟨him,rfl⟩
  · rw [removeTarget] at ht
    split_ifs at ht with hc
    simp only [not_or] at hc
    obtain ⟨k,hk⟩ := getFileIndexInDir_found hd hc.2.2.2.2
    rw [hk]
    exact Option.some_ne_none k

theorem remove_link_atomic_missing : ∃ ret s', fsRemove fsFormat (pathOf (pathArg ['/','a'])) = some (ret,s') ∧
    s' = fsFormat ∧ (fsLink fsFormat (pathOf (pathArg ['/','a'])) (pathOf (pathArg ['/','b']))).2 = fsFormat := by
  have hr : (fsRemove fsFormat (pathOf (pathArg ['/','a']))).map Prod.fst = some (-5) := by decide +kernel
  have hl : (fsLink fsFormat (pathOf (pathArg ['/','a'])) (pathOf (pathArg ['/','b']))).1 = -8 := by decide +kernel
  obtain ⟨⟨ret,s'⟩,hr,hret⟩ := Option.map_eq_some_iff.mp hr
  have hneg : ret < 0 := by
    rw [show ret = -5 from hret]
    decide
  exact ⟨ret,s',hr,(remove_link_atomic fsFormat).1 _ _ _ hr hneg,
    (remove_link_atomic fsFormat).2.1 _ _ (by rw [hl]; decide)⟩

end LiteOSFS
