import LiteOSFS.Storage.Growth

/-! # The order of allocation

Blocks are allocated in ascending order, so the state before a write determines
which block each empty node on its way receives. `Clean` says that the ones taken
as second-level index blocks hold zeros only.
-/
namespace LiteOSFS
open Memory Ownership

/-- The free blocks, in the order in which they are allocated. -/
def freeBlocks (m : Mem) : List ℕ := (List.range 65528).filter (fun b => !used m b)

/-- The blocks that the empty nodes of a list receive, visited in turn. -/
def fill (has : Node → Bool) (free : List ℕ) : List Node → List (Node × ℕ)
  | [] => []
  | n :: ns =>
    if has n then fill has free ns
    else match free with
      | [] => []
      | id :: free => (n,id) :: fill (Function.update has n true) free ns

def hasNode (m : Mem) (x : Inode) (n : Node) : Bool := nodePtr m x n != 0

def Clean (m : Mem) (x : Inode) (ns : List Node) : Prop :=
  ∀ k id, (Node.sec k,id) ∈ fill (hasNode m x) (freeBlocks m) ns → blockAt m id = zeros

/-- The nodes on the way to a logical block, in the order in which the writers visit them. -/
def pathTo (b : ℕ) : List Node :=
  if b < 6 then [.data b]
  else if b < 518 then [.ind,.data b]
  else [.dbl,.sec ((b - 518) / 512),.data b]

/-- Each node of the list stands in the inode or in a node before it. -/
def Rooted : (before ns : List Node) → Prop
  | _, [] => True
  | before, n :: ns => (∀ p j, n.parent = some (p,j) → p ∈ before ∧ j < 512) ∧ Rooted (n :: before) ns

section Fill
variable {has : Node → Bool} {free : List ℕ} {n : Node} {ns : List Node}

theorem fill_skip (h : has n = true) : fill has free (n :: ns) = fill has free ns := by
  cases free <;> simp [fill, h]

theorem fill_cons {id : ℕ} (h : has n = false) :
    fill has (id :: free) (n :: ns) = (n,id) :: fill (Function.update has n true) free ns := by
  simp [fill, h]

theorem fill_nil (h : has n = false) : fill has [] (n :: ns) = [] := by simp [fill, h]

theorem mem_of_mem_fill {id : ℕ} (h : (n,id) ∈ fill has free ns) : id ∈ free := by
  induction ns generalizing has free with
  | nil => cases free <;> cases h
  | cons l ns ih =>
    cases hl : has l with
    | true => exact ih (fill_skip hl ▸ h)
    | false =>
      cases free with
      | nil => simp [fill_nil hl] at h
      | cons id' free =>
        rw [fill_cons hl] at h
        rcases List.mem_cons.mp h with he | hr
        · cases he
          exact List.mem_cons_self
        · exact List.mem_cons_of_mem _ (ih hr)

/-- Only nodes of the list are filled. -/
theorem fill_subset {id : ℕ} (h : (n,id) ∈ fill has free ns) : n ∈ ns := by
  induction ns generalizing has free with
  | nil => cases free <;> cases h
  | cons l ns ih =>
    cases hl : has l with
    | true => exact List.mem_cons_of_mem l (ih (fill_skip hl ▸ h))
    | false =>
      cases free with
      | nil => simp [fill_nil hl] at h
      | cons id' free =>
        rw [fill_cons hl] at h
        rcases List.mem_cons.mp h with he | hr
        · cases he
          exact List.mem_cons_self
        · exact List.mem_cons_of_mem l (ih hr)

end Fill

theorem hasNode_true {m : Mem} {x : Inode} {n : Node} (h : nodePtr m x n ≠ 0) : hasNode m x n = true := by
  simp [hasNode, h]

theorem hasNode_false {m : Mem} {x : Inode} {n : Node} (h : nodePtr m x n = 0) : hasNode m x n = false := by
  simp [hasNode, h]

theorem mem_freeBlocks {m : Mem} {b : ℕ} : b ∈ freeBlocks m ↔ b < 65528 ∧ used m b = false := by
  simp [freeBlocks]

theorem freeBlocks_congr {m m' : Mem} (h : ∀ b < 65528, used m b = used m' b) :
    freeBlocks m = freeBlocks m' := by
  unfold freeBlocks
  exact List.filter_congr (fun b hb => by rw [h b (List.mem_range.mp hb)])

theorem freeBlocks_eq_nil {m : Mem} (h : firstFree m = sizeMax) : freeBlocks m = [] := by
  apply List.eq_nil_iff_forall_not_mem.mpr
  intro b hb
  obtain ⟨hlt,hu⟩ := mem_freeBlocks.mp hb
  rw [firstFree_eq_sizeMax h b hlt] at hu
  cases hu

/-- The head of the free list is what the next allocation returns. -/
theorem freeBlocks_cons {m m' : Mem} (hs : SysUsed m) (h : firstFree m ≠ sizeMax)
    (hm : ∀ b < 65536, used m' b = (decide (firstFree m = b) || used m b)) :
    freeBlocks m = firstFree m :: freeBlocks m' := by
  obtain ⟨⟨_,hlt⟩,hu,hall⟩ := firstFree_spec hs h
  generalize firstFree m = id at *
  obtain ⟨k,hk⟩ : ∃ k, 65528 = id + (k + 1) := ⟨65528 - id - 1,by omega⟩
  have hlow : ∀ m'' : Mem, (∀ b < id, used m'' b = true) →
      (List.range id).filter (fun b => !used m'' b) = [] := by
    intro m'' h''
    rw [List.filter_eq_nil_iff]
    intro b hb
    simp [h'' b (List.mem_range.mp hb)]
  have hlow' : ∀ b < id, used m' b = true := by
    intro b hb
    rw [hm b (by omega), hall b hb, Bool.or_true]
  rw [freeBlocks, freeBlocks, hk, List.range_add, List.filter_append, List.filter_append, hlow m hall,
    hlow m' hlow', List.range_succ_eq_map, List.map_cons, List.filter_cons, List.filter_cons,
    Nat.add_zero, hu, hm id (by omega), decide_eq_true rfl]
  simp only [List.nil_append, Bool.not_false, if_true, Bool.true_or, Bool.not_true, Bool.false_eq_true,
    if_false]
  congr 1
  apply List.filter_congr
  intro b hb
  simp only [List.mem_map, List.mem_range] at hb
  obtain ⟨c,⟨d,hd,rfl⟩,rfl⟩ := hb
  rw [hm _ (by omega), decide_eq_false (by omega), Bool.false_or]

theorem rooted_pathTo {b : ℕ} (hb : b < 262662) : Rooted [] (pathTo b) := by
  unfold pathTo
  split_ifs with h6 h518
  · refine ⟨fun p j h => ?_,trivial⟩
    simp only [Node.parent, if_pos h6] at h
    cases h
  · refine ⟨fun p j h => ?_,fun p j h => ?_,trivial⟩
    · cases h
    · simp only [Node.parent, if_neg h6, if_pos h518] at h
      cases h
      exact ⟨List.mem_cons_self,by omega⟩
  · refine ⟨fun p j h => ?_,fun p j h => ?_,fun p j h => ?_,trivial⟩
    · cases h
    · cases h
      exact ⟨List.mem_cons_self,by omega⟩
    · simp only [Node.parent, if_neg h6, if_neg h518] at h
      cases h
      exact ⟨List.mem_cons_self,by omega⟩

theorem rooted_dropLast {before ns : List Node} (h : Rooted before ns) : Rooted before ns.dropLast := by
  induction ns generalizing before with
  | nil => trivial
  | cons n ns ih =>
    cases ns with
    | nil => trivial
    | cons l ns => exact ⟨h.1,ih h.2⟩

section Clean
variable {m m' : Mem} {t : Table} {i : Fin 256} {x x' : Inode} {n : Node} {ns : List Node}

theorem Clean.skip (h : Clean m x (n :: ns)) (hn : nodePtr m x n ≠ 0) : Clean m x ns := by
  intro k id hk
  apply h k id
  rwa [fill_skip (hasNode_true hn)]

theorem Clean.unskip (h : Clean m x ns) (hn : nodePtr m x n ≠ 0) : Clean m x (n :: ns) := by
  intro k id hk
  apply h k id
  rwa [fill_skip (hasNode_true hn)] at hk

theorem Clean.head (h : Clean m x (n :: ns)) (hs : SysUsed m) (hn : nodePtr m x n = 0)
    (hf : firstFree m ≠ sizeMax) (k : ℕ) (hk : n = .sec k) : blockAt m (firstFree m) = zeros := by
  apply h k (firstFree m)
  have hm : ∀ b < 65536, used (setUsed m (firstFree m)) b = (decide (firstFree m = b) || used m b) :=
    fun b _ => used_setUsed _
  rw [freeBlocks_cons hs hf hm, hk, fill_cons (hk ▸ hasNode_false hn)]
  exact List.mem_cons_self

theorem Clean.tail (h : Clean m (t i) (n :: ns)) (hs : Sound m t) (hfile : (t i).fileType ≠ typeDirectory)
    (hn : nodePtr m (t i) n = 0) (hf : firstFree m ≠ sizeMax)
    (g : GrownAt m t i n (firstFree m) m' x') : Clean m' x' ns := by
  have htype : x'.fileType ≠ typeDirectory := by rwa [attributes_fileType g.attrs]
  have hfree := freeBlocks_cons hs.sys hf g.marks
  have hhas : hasNode m' x' = Function.update (hasNode m (t i)) n true := by
    funext l
    have hh := g.holds (i,l)
    rw [held_update_same, owns_of_file htype] at hh
    rw [hasNode, hh, Function.update_apply]
    by_cases hl : l = n
    · simp [hl,g.data.ne_zero]
    · rw [if_neg (by simp [hl]), if_neg hl, hasNode, held, owns_of_file hfile]
  intro k id hk
  rw [hhas] at hk
  have hmem : id ∈ freeBlocks m' := mem_of_mem_fill hk
  have hold : id ∈ freeBlocks m := by
    rw [hfree]
    exact List.mem_cons_of_mem _ hmem
  obtain ⟨hlt,hu⟩ := mem_freeBlocks.mp hold
  have hu' := (mem_freeBlocks.mp hmem).2
  have hid : DataId id := by
    refine ⟨?_,hlt⟩
    by_contra hlow
    rw [hs.sys id (by omega)] at hu
    cases hu
  have hne : id ≠ firstFree m := by
    rintro rfl
    rw [g.marks _ (by omega), decide_eq_true rfl, Bool.true_or] at hu'
    cases hu'
  have hpar : ∀ p j, n.parent = some (p,j) → nodePtr m (t i) p ≠ id := by
    intro p j _
    rw [← owns_of_file hfile]
    exact hs.own.fresh hid.ne_zero hu (i,p)
  rw [g.blocks id hid hne hpar]
  apply h k id
  rw [hfree, fill_cons (hasNode_false hn)]
  exact List.mem_cons_of_mem _ hk

end Clean

/-- What `growPath` does: besides `Extends`, the data blocks keep their bytes, and the new nodes are
among those visited. -/
structure Grows (m : Mem) (t : Table) (i : Fin 256) (ns : List Node) (m' : Mem) (x' : Inode) : Prop
    extends Extends m t i m' x' where
  bytes : ∀ q b, q.2 = .data b → held m t q ≠ 0 → blockAt m' (held m t q) = blockAt m (held m t q)
  visited : ∀ n, nodePtr m (t i) n = 0 → nodePtr m' x' n ≠ 0 → n ∈ ns

theorem GrownAt.grows {m m' : Mem} {t : Table} {i : Fin 256} {n : Node} {id : ℕ} {x' : Inode} (hs : Sound m t)
    (hfile : (t i).fileType ≠ typeDirectory) (hn : nodePtr m (t i) n = 0) (g : GrownAt m t i n id m' x') :
    Grows m t i [n] m' x' := by
  have htype : x'.fileType ≠ typeDirectory := by rwa [attributes_fileType g.attrs]
  refine ⟨g.extends hs hfile hn,fun q b hq hne => ?_,fun l h0 h1 => ?_⟩
  · apply g.blocks _ (hs.own.dataId hne)
    · exact hs.own.fresh g.data.ne_zero g.free q
    · intro p j hpar
      rw [← owns_of_file hfile]
      refine Ne.symm (hs.own.ne_of_ne hne (?_ : q ≠ (i,p)))
      rintro rfl
      exact Node.parent_ne_data hpar hq
  · have hh := g.holds (i,l)
    rw [held_update_same, owns_of_file htype] at hh
    split_ifs at hh with hl
    · simpa using hl
    · rw [hh, held, owns_of_file hfile] at h1
      exact absurd h0 h1

theorem Grows.trans {m m₁ m₂ : Mem} {t : Table} {i : Fin 256} {ns ns' : List Node} {x₁ x₂ : Inode}
    (h : Grows m t i ns m₁ x₁) (h' : Grows m₁ (Function.update t i x₁) i ns' m₂ x₂) :
    Grows m t i (ns ++ ns') m₂ x₂ := by
  have hv := h'.visited
  rw [Function.update_self] at hv
  refine ⟨h.toExtends.trans h'.toExtends,fun q b hq hne => ?_,fun n h0 h2 => ?_⟩
  · have hk := h.keeps q hne
    have hb := h'.bytes q b hq (by rwa [hk])
    rw [hk] at hb
    rw [hb, h.bytes q b hq hne]
  · by_cases h1 : nodePtr m₁ x₁ n = 0
    · exact List.mem_append_right _ (hv n h1 h2)
    · exact List.mem_append_left _ (h.visited n h0 h1)

/-- A path is grown node by node, the second-level block being clean; when it is not completed the
image is full. -/
theorem growPath_spec {m : Mem} {t : Table} {i : Fin 256} {before ns rest : List Node} (hs : Sound m t)
    (hfile : (t i).fileType ≠ typeDirectory) (hroot : Rooted before ns)
    (hbefore : ∀ p ∈ before, nodePtr m (t i) p ≠ 0) (hc : Clean m (t i) (ns ++ rest))
    {ok : Bool} {m' : Mem} {x' : Inode} (h : growPath m (t i) ns = (ok,m',x')) :
    Grows m t i ns m' x' ∧ (ok = true → (∀ n ∈ ns, nodePtr m' x' n ≠ 0) ∧ Clean m' x' rest) ∧
      (ok = false → firstFree m' = sizeMax ∧ ∃ n ∈ ns, nodePtr m' x' n = 0) := by
  induction ns generalizing m t before with
  | nil =>
    cases h
    refine ⟨⟨Extends.refl hs,fun _ _ _ _ => rfl,fun _ h0 h1 => absurd h0 h1⟩,fun _ => ⟨fun n hn => ?_,hc⟩,
      fun he => by cases he⟩
    cases hn
  | cons n ns ih =>
    obtain ⟨hpar,hroot'⟩ := hroot
    rw [growPath] at h
    by_cases hn : nodePtr m (t i) n = 0
    · by_cases hf : firstFree m = sizeMax
      · rw [grow_full hn hf] at h
        cases h
        refine ⟨⟨Extends.refl hs,fun _ _ _ _ => rfl,fun _ h0 h1 => absurd h0 h1⟩,fun he => ?_,
          fun _ => ⟨hf,n,List.mem_cons_self,hn⟩⟩
        cases he
      · cases hg : grow m (t i) n with
        | none =>
          rw [grow_fresh hn hf] at hg
          cases hg
        | some r =>
          obtain ⟨m₁,x₁⟩ := r
          rw [hg] at h
          have g := grow_missing hs hfile hn (fun p j hp => ⟨hbefore p (hpar p j hp).1,(hpar p j hp).2⟩)
            (fun k hk => hc.head hs.sys hn hf k hk) hg
          have hgr := g.grows hs hfile hn
          have htype : x₁.fileType ≠ typeDirectory := by rwa [attributes_fileType g.attrs]
          have hupd : (Function.update t i x₁) i = x₁ := Function.update_self ..
          have hnew : nodePtr m₁ x₁ n ≠ 0 := by
            have hh := g.holds (i,n)
            rw [held_update_same, owns_of_file htype, if_pos rfl] at hh
            rw [hh]
            exact g.data.ne_zero
          have hkeep : ∀ l, nodePtr m (t i) l ≠ 0 → nodePtr m₁ x₁ l ≠ 0 := by
            intro l hl
            have hk := hgr.keeps (i,l) (by rwa [held, owns_of_file hfile])
            rw [held_update_same, owns_of_file htype, held, owns_of_file hfile] at hk
            rwa [hk]
          obtain ⟨hg',hok,hfull⟩ := ih (m := m₁) (t := Function.update t i x₁)
            hgr.sound (by rwa [hupd]) hroot' (by
              rw [hupd]
              intro p hp
              rcases List.mem_cons.mp hp with rfl | hp
              · exact hnew
              · exact hkeep p (hbefore p hp))
            (by rw [hupd]; exact hc.tail hs hfile hn hf g) (by rwa [hupd])
          refine ⟨hgr.trans hg',fun ht => ⟨fun l hl => ?_,(hok ht).2⟩,fun hff => ?_⟩
          rotate_left
          · obtain ⟨hf',l,hl,h0⟩ := hfull hff
            exact ⟨hf',l,List.mem_cons_of_mem _ hl,h0⟩
          rcases List.mem_cons.mp hl with rfl | hl
          · have htype' : x'.fileType ≠ typeDirectory := by
              have ha := hg'.attrs
              rw [hupd] at ha
              rwa [attributes_fileType ha]
            have hk := hg'.keeps (i,l) (by rw [held_update_same, owns_of_file htype]; exact hnew)
            rw [held_update_same, held_update_same, owns_of_file htype', owns_of_file htype] at hk
            rw [hk]
            exact hnew
          · exact (hok ht).1 l hl
    · rw [grow_present hn] at h
      obtain ⟨hg',hok,hfull⟩ := ih hs hfile hroot' (by
          intro p hp
          rcases List.mem_cons.mp hp with rfl | hp
          · exact hn
          · exact hbefore p hp) (hc.skip hn) h
      refine ⟨⟨hg'.toExtends,hg'.bytes,fun l h0 h1 => List.mem_cons_of_mem _ (hg'.visited l h0 h1)⟩,
        fun ht => ⟨fun l hl => ?_,(hok ht).2⟩,fun hff => ?_⟩
      rotate_left
      · obtain ⟨hf',l,hl,h0⟩ := hfull hff
        exact ⟨hf',l,List.mem_cons_of_mem _ hl,h0⟩
      rcases List.mem_cons.mp hl with rfl | hl
      · have htype' : x'.fileType ≠ typeDirectory := by rwa [attributes_fileType hg'.attrs]
        have hk := hg'.keeps (i,l) (by rwa [held, owns_of_file hfile])
        rw [held_update_same, owns_of_file htype', held, owns_of_file hfile] at hk
        rwa [hk]
      · exact (hok ht).1 l hl

end LiteOSFS
