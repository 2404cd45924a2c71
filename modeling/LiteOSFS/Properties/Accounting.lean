import LiteOSFS.FileSystem.AppendOnly
import LiteOSFS.FileSystem.Coverage
import LiteOSFS.Properties.AppendRead
import Mathlib.Algebra.BigOperators.Group.Finset.Basic

/-! # The number of used blocks

After a run that only creates and appends, every used block is a block of a
directory with entries or one that the size of a file calls for.
-/
namespace LiteOSFS
open Memory CString Ownership Transition Finset

/-- The blocks of a file with `n` data blocks. -/
def blockCost (n : ℕ) : ℕ :=
  n + (if n > 6 then 1 else 0) + (if n > 518 then 1 + (n - 518 + 511) / 512 else 0)

/-- The nodes of such a file. -/
def Node.upTo (n : ℕ) : Finset Node :=
  (range n).image data ∪ (if n > 6 then {ind} else ∅) ∪
    (if n > 518 then {dbl} ∪ (range ((n - 518 + 511) / 512)).image sec else ∅)

theorem Node.mem_upTo {n : ℕ} {l : Node} : l ∈ upTo n ↔ l.first < n := by
  unfold upTo
  cases l <;> split_ifs <;> simp [first] <;> omega

theorem Node.card_upTo (n : ℕ) : (upTo n).card = blockCost n := by
  have hdata : ((range n).image data).card = n := by
    rw [card_image_of_injective _ (fun a b hab => by simpa using hab), card_range]
  have hsec : ∀ k, ((range k).image sec).card = k := by
    intro k
    rw [card_image_of_injective _ (fun a b hab => by simpa using hab), card_range]
  unfold upTo blockCost
  rw [card_union_of_disjoint, card_union_of_disjoint, hdata]
  · split_ifs <;> simp [hsec, Nat.add_comm]
  · split_ifs <;> simp
  · split_ifs <;> simp [disjoint_left]

/-- The data node with which an index node begins is below it. -/
theorem Node.mem_pathTo_first (l : Node) : l ∈ pathTo l.first := by
  cases l with
  | data b =>
    show data b ∈ pathTo b
    unfold pathTo
    split_ifs <;> simp
  | ind => simp [first, pathTo]
  | dbl => simp [first, pathTo]
  | sec k =>
    show sec k ∈ pathTo (518 + 512 * k)
    rw [pathTo, if_neg (by omega), if_neg (by omega), Nat.add_sub_cancel_left, Nat.mul_div_cancel_left k (by omega)]
    simp

/-- Every node on the path to a filled data node is filled. -/
theorem nodePtr_ne_zero_of_mem {m : Mem} {x : Inode} {l : Node} {b : ℕ} (h : l ∈ pathTo b)
    (hb : nodePtr m x (.data b) ≠ 0) : nodePtr m x l ≠ 0 := by
  unfold pathTo at h
  split_ifs at h with h6 h518
  · rwa [List.mem_singleton.mp h]
  · rcases List.mem_pair.mp h with rfl | rfl
    · exact parent_ptr_ne_zero (j := b - 6) (by rw [Node.parent, if_neg h6, if_pos h518]) hb
    · exact hb
  · have hsec : nodePtr m x (.sec ((b - 518) / 512)) ≠ 0 :=
      parent_ptr_ne_zero (j := (b - 518) % 512) (by rw [Node.parent, if_neg h6, if_neg h518]) hb
    simp only [List.mem_cons, List.not_mem_nil, or_false] at h
    rcases h with rfl | rfl | rfl
    · exact parent_ptr_ne_zero (n := .sec ((b - 518) / 512)) rfl hsec
    · exact hsec
    · exact hb

/-- A file that stores `bs` has the nodes that `bs` calls for. -/
theorem Stores.node_iff {m : Mem} {x : Inode} {bs : List UInt8} (h : Stores m x bs) {l : Node} :
    nodePtr m x l ≠ 0 ↔ l ∈ Node.upTo ((bs.length + 1023) / 1024) := by
  rw [Node.mem_upTo]
  refine ⟨fun hl => ?_,fun hl => ?_⟩
  · have hlt := h.node l hl
    omega
  · exact nodePtr_ne_zero_of_mem l.mem_pathTo_first (h.block (by omega))

/-- The entries a directory holds, as far as the count depends on them. -/
def HasEntry (x : Inode) : Prop := ∃ j < 31, x.live j = true

instance (x : Inode) : Decidable (HasEntry x) := inferInstanceAs (Decidable (∃ j < 31, _))

def populatedDirectories (m : Mem) : Finset (Fin 256) :=
  univ.filter (fun d => inodeUsed m d = true ∧ (inodeAt m d).fileType = typeDirectory ∧ HasEntry (inodeAt m d))

def regularFiles (m : Mem) : Finset (Fin 256) :=
  univ.filter (fun i => inodeUsed m i = true ∧ (inodeAt m i).fileType = typeRegular)

/-- The calls of the run: those of `AppendOnly`, with every creation successful. -/
def Accounted (s : F19FS) : Call → Prop
  | .create path type => ∃ s', fsCreate s (pathOf path) type = some (0,s')
  | c => AppendOnly s c

theorem Accounted.appendOnly {s : F19FS} {c : Call} (h : Accounted s c) : AppendOnly s c := by
  cases c <;> first | exact h | trivial

structure AccountInv (q : F19FS × Contents) : Prop where
  append : AppendInv q
  covered : Covered q.1.image
  populated : ∀ d < 256, (inodeAt q.1.image d).fileType = typeDirectory → (inodeAt q.1.image d).dirBlock ≠ 0 →
    HasEntry (inodeAt q.1.image d)

theorem account_fsFormat : AccountInv (fsFormat,fun _ => []) := by
  refine ⟨append_fsFormat,covered_fsFormat,fun d hd _ hne => ?_⟩
  have hh : held fsFormat.image (tableOf fsFormat.image) (⟨d,hd⟩,.data 0) = (inodeAt fsFormat.image d).dirBlock :=
    owns_data_zero
  rw [held_fsFormat] at hh
  exact absurd hh.symm hne

theorem account_step {q q' : F19FS × Contents} {c : Call} (h : AccountInv q) (hg : Accounted q.1 c)
    (hs : ghost step appended q c = some q') : AccountInv q' := by
  have happ := append_step h.append hg.appendOnly hs
  obtain ⟨hstep,_⟩ := of_ghost hs
  obtain ⟨ret,hc⟩ := step_call hstep
  have hsame : q'.1.image = q.1.image → AccountInv q' := fun he =>
    ⟨happ,by rw [he]; exact h.covered,by rw [he]; exact h.populated⟩
  have hi := h.append.image.inv
  cases c with
  | create path type =>
    obtain ⟨s₁,hcr⟩ := hg
    cases (hc : fsCreate q.1 (pathOf path) type = _).symm.trans hcr
    rcases (fsCreate_effect hi hc).2 with ⟨hr,_⟩ | ⟨_,_,p,_,_,_,hch,⟨hr,_⟩ | ⟨_,k,b,c,hcr⟩⟩
    · cases hr
    · cases hr
    have hp := hch.lt
    have hdir := hch.directory
    have hfirst : k = 0 → (inodeAt q.1.image p).dirBlock = 0 := by
      rintro rfl
      by_contra hne
      obtain ⟨j,hj,hl⟩ := h.populated _ hp hdir hne
      have hv := hcr.vacant
      by_cases h0 : j = 0
      · rw [h0, hv] at hl
        cases hl
      · rw [h.append.image.packed _ hp hdir j hj hl 0 (by omega)] at hv
        cases hv
    refine ⟨happ,hcr.covered hi happ.image.inv hp hdir hfirst h.covered,fun d hd hdird hne => ?_⟩
    by_cases hdp : p = d
    · subst hdp
      refine ⟨k,hcr.slot,?_⟩
      rw [hcr.parent, Inode.live_withEntry _ hcr.slot hcr.slot, decide_eq_true rfl, Bool.or_true]
    · by_cases hdc : c = d
      · subst hdc
        rw [hcr.child] at hne
        exact absurd rfl hne
      · rw [hcr.others d hd hdp hdc] at hdird hne ⊢
        exact h.populated d hd hdird hne
  | write fd src nbyte =>
    have hfile : (q.1.inode (q.1.fileOf fd)).fileType ≠ typeDirectory := by
      rw [hg.1]
      decide
    have hused : q.1.Opened fd → InUse q.1.image (q.1.fileOf fd) := fun ho => ⟨h.append.named fd.toNat ho.lt,Or.inr hg.1⟩
    have hsafe : WriteSafe q.1 fd nbyte := fun hlo hhi hopen =>
      (h.append.image.ready hfile (h.append.offset fd.toNat (by omega)) nbyte).1 hlo hhi hopen
    refine ⟨happ,fsWrite_covered hi hsafe hused hc h.covered,?_⟩
    rcases fsWrite_account hi hsafe hc with he | ⟨_,_,m',x',size,hext,_,him⟩
    · rw [he]
      exact h.populated
    · intro d hd hdird hne
      rw [him, inodeAt_putInode, hext.inodes d hd] at hdird hne ⊢
      by_cases hfd : (q.1.fileOf fd).val = d
      · rw [if_pos hfd] at hdird
        exact absurd ((attributes_fileType hext.attrs).symm.trans hdird) hfile
      · rw [if_neg hfd] at hdird hne ⊢
        exact h.populated d hd hdird hne
  | openFile path => exact hsame (fsOpen_image hc)
  | close fd => exact hsame (by rw [← fsClose_image q.1 fd, Option.some.inj hc])
  | read fd dstNull nbyte =>
    obtain ⟨⟨_,bytes,_⟩,hr,he⟩ := Option.map_eq_some_iff.mp hc
    cases he
    exact hsame (fsRead_image hr)
  | seek fd offset whence => exact hsame (fsSeek_image hc)
  | remove _ => exact hg.elim
  | move _ _ _ => exact hg.elim
  | link _ _ => exact hg.elim
  | remount => exact hg.elim

section Count
variable {m : Mem} {content : Contents}

/-- The filled places of an inode. -/
def filledNodes (m : Mem) (i : Fin 256) : Finset Node :=
  if (inodeAt m i).fileType = typeDirectory then (if HasEntry (inodeAt m i) then {.data 0} else ∅)
  else Node.upTo (((inodeAt m i).fileSize.toNat + 1023) / 1024)

theorem AccountInv.mem_filledNodes {q : F19FS × Contents} (h : AccountInv q) {i : Fin 256} {l : Node} :
    l ∈ filledNodes q.1.image i ↔ held q.1.image (tableOf q.1.image) (i,l) ≠ 0 := by
  have hlt := i.isLt
  unfold filledNodes
  by_cases hdir : (inodeAt q.1.image i).fileType = typeDirectory
  · have hblk : held q.1.image (tableOf q.1.image) (i,.data 0) = (inodeAt q.1.image i).dirBlock := owns_data_zero
    rw [if_pos hdir]
    by_cases hl : l = .data 0
    · rw [hl, hblk]
      split_ifs with he
      · obtain ⟨j,hj,hlive⟩ := he
        exact ⟨fun _ => (h.append.image.inv.record i hlt).block hdir j hj hlive,fun _ => mem_singleton_self _⟩
      · exact ⟨fun hc => absurd hc (notMem_empty _),fun hne => absurd (h.populated i hlt hdir hne) he⟩
    · have h0 : held q.1.image (tableOf q.1.image) (i,l) = 0 := owns_of_directory hdir hl
      rw [h0]
      split_ifs <;> simp [hl]
  · have hst : Stores q.1.image (inodeAt q.1.image i) (q.2 i) := h.append.image.file i hdir
    have hown : held q.1.image (tableOf q.1.image) (i,l) = nodePtr q.1.image (inodeAt q.1.image i) l := owns_of_file hdir
    rw [if_neg hdir, hown, hst.node_iff, hst.size]

theorem AccountInv.card_filledNodes {q : F19FS × Contents} (h : AccountInv q) (i : Fin 256) :
    (filledNodes q.1.image i).card = (if i ∈ populatedDirectories q.1.image then 1 else 0) +
      (if i ∈ regularFiles q.1.image then blockCost (((inodeAt q.1.image i).fileSize.toNat + 1023) / 1024) else 0) := by
  have hlt := i.isLt
  simp only [populatedDirectories, regularFiles, mem_filter, mem_univ, true_and]
  unfold filledNodes
  by_cases hdir : (inodeAt q.1.image i).fileType = typeDirectory
  · have hreg : ¬ (inodeUsed q.1.image i = true ∧ (inodeAt q.1.image i).fileType = typeRegular) := by
      rw [hdir]
      exact fun hc => absurd hc.2 (by decide)
    have hu := (h.append.image.inv.record i hlt).marked hdir
    rw [if_pos hdir, if_neg hreg]
    by_cases he : HasEntry (inodeAt q.1.image i)
    · rw [if_pos he, if_pos ⟨hu,hdir,he⟩, card_singleton]
    · rw [if_neg he, if_neg (fun hc => he hc.2.2), card_empty]
  · rw [if_neg hdir, if_neg (fun hc => hdir hc.2.1), Nat.zero_add, Node.card_upTo]
    by_cases hu : inodeUsed q.1.image i = true
    · rw [if_pos ⟨hu,(h.append.image.kind i hlt hu).resolve_left hdir⟩]
    · have hst : Stores q.1.image (inodeAt q.1.image i) (q.2 i) := h.append.image.file i hdir
      rw [if_neg (fun hc => hu hc.1), hst.size, h.append.image.free i (by simpa using hu)]
      rfl

/-- The used blocks are the first 17 and the data blocks in use. -/
theorem usedBlocks_eq (hs : SysUsed m) : blockStoreGetUsedBlocks m wholeStore =
    17 + ((Ico 17 65528).filter (fun b => used m b = true)).card := by
  have hsplit : (range 65528).filter (fun b => used m b = true) =
      range 17 ∪ (Ico 17 65528).filter (fun b => used m b = true) := by
    ext b
    simp only [mem_filter, mem_range, mem_union, mem_Ico]
    constructor
    · rintro ⟨hb,hu⟩
      by_cases h17 : b < 17
      · exact Or.inl h17
      · exact Or.inr ⟨⟨by omega,hb⟩,hu⟩
    · rintro (h17 | ⟨hb,hu⟩)
      · exact ⟨by omega,hs b h17⟩
      · exact ⟨hb.2,hu⟩
  rw [usedBlocks_card, hsplit, card_union_of_disjoint, card_range]
  rw [disjoint_left]
  intro b hb hc
  have hb := mem_range.mp hb
  have hc := (mem_Ico.mp (mem_filter.mp hc).1).1
  omega

theorem AccountInv.usedBlocks {q : F19FS × Contents} (h : AccountInv q) :
    ((Ico 17 65528).filter (fun b => used q.1.image b = true)).card = ∑ i, (filledNodes q.1.image i).card := by
  have hplaces : (univ.biUnion (fun i => (filledNodes q.1.image i).image (Prod.mk i))).card =
      ∑ i, (filledNodes q.1.image i).card := by
    rw [card_biUnion]
    · exact sum_congr rfl (fun i _ => card_image_of_injective _ (Prod.mk_right_injective i))
    · intro i _ j _ hij
      show Disjoint _ _
      rw [disjoint_left]
      intro p hp hp'
      obtain ⟨_,_,rfl⟩ := mem_image.mp hp
      obtain ⟨_,_,he⟩ := mem_image.mp hp'
      exact hij (congrArg Prod.fst he).symm
  rw [← hplaces]
  symm
  apply h.append.image.inv.sound.own.card_eq
  · rintro ⟨i,l⟩
    simp only [mem_biUnion, mem_univ, true_and, mem_image, Prod.mk.injEq]
    rw [← h.mem_filledNodes]
    exact ⟨fun ⟨_,_,hl,hi,he⟩ => he ▸ hi ▸ hl,fun hl => ⟨i,l,hl,rfl,rfl⟩⟩
  · intro b
    simp only [mem_filter, mem_Ico]
    constructor
    · rintro ⟨hb,hu⟩
      obtain ⟨q,_,hq⟩ := h.covered b hb hu
      exact ⟨DataId.ne_zero hb,q,hq⟩
    · rintro ⟨hne,p,rfl⟩
      exact ⟨h.append.image.inv.sound.own.dataId hne,h.append.image.inv.sound.own.isUsed hne⟩

end Count

theorem append_accounting {s : F19FS} (h : Reach step Accounted fsFormat s) :
    blockStoreGetUsedBlocks s.image wholeStore = 17 + (populatedDirectories s.image).card +
      ∑ i ∈ regularFiles s.image, blockCost (((s.inode i).fileSize.toNat + 1023) / 1024) := by
  obtain ⟨content,hr⟩ := h.exists_ghost appended (fun _ => [])
  have hi : AccountInv (s,content) := hr.invariant account_fsFormat (fun hi hg hs => account_step hi hg hs)
  rw [usedBlocks_eq hi.append.image.inv.sound.sys, hi.usedBlocks, sum_congr rfl (fun i _ => hi.card_filledNodes i),
    sum_add_distrib, ← sum_filter, ← card_eq_sum_ones, ← sum_filter, Nat.add_assoc]
  simp only [filter_mem_eq_inter, univ_inter]
  rfl

theorem append_accounting_two : ∃ s, run step fsFormat [.create (pathArg ['/','a']) .regular,
    .openFile (pathArg ['/','a']),.write 0 (some (startsWith 7)) 2] = some s ∧
    blockStoreGetUsedBlocks s.image wholeStore = 17 + (populatedDirectories s.image).card +
      ∑ i ∈ regularFiles s.image, blockCost (((s.inode i).fileSize.toNat + 1023) / 1024) := by
  obtain ⟨s₀,s₁,s,h₀,h₁,h₂,hguard,_⟩ := twoBytes
  have hs₀ := step_of_call h₀
  have hs₁ := step_of_call h₁
  have hs := step_of_call h₂
  have hcreate : Accounted fsFormat (.create (pathArg ['/','a']) .regular) := ⟨s₀,h₀⟩
  have hopen : Accounted s₀ (.openFile (pathArg ['/','a'])) := trivial
  have hwrite : Accounted s₁ (.write 0 (some (startsWith 7)) 2) := hguard
  exact ⟨s,run_cons.mpr ⟨s₀,hs₀,run_cons.mpr ⟨s₁,hs₁,run_cons.mpr ⟨s,hs,rfl⟩⟩⟩,
    append_accounting (((Reach.refl.tail hcreate hs₀).tail hopen hs₁).tail hwrite hs)⟩

end LiteOSFS
