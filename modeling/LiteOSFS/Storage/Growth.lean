import LiteOSFS.Storage.Ownership
import LiteOSFS.Storage.System

/-! # Growing the block tree of a file

`grow` gives an empty node the first free block, as each of the writers does for
its own level: the block of a pointer of the inode is cleared when it becomes an
index block, a second-level index block is taken as it is. `Extends` is what a
series of such steps and of stores to the file's own blocks may do to an image.
-/
namespace LiteOSFS
open Memory Ownership

/-- The free-space invariant: the system area is reserved and blocks are owned exclusively. -/
structure Sound (m : Mem) (t : Table) : Prop where
  sys : SysUsed m
  own : Owned m t

/-- Index blocks that are zero-filled when they are allocated. -/
def Node.isCleared : Node → Bool
  | ind => true
  | dbl => true
  | _ => false

/-- The fields of an inode that block allocation leaves alone. -/
def Inode.attributes (x : Inode) : Inode :=
  { x with directPointer := fun _ => 0, indirectPointer := 0, doubleIndirectPointer := 0 }

def grow (m : Mem) (x : Inode) (n : Node) : Option (Mem × Inode) :=
  if nodePtr m x n ≠ 0 then some (m,x)
  else
    let id := firstFree m
    if id = sizeMax then none
    else
      let m := setUsed m id
      some (assign (if n.isCleared then putBlock m id zeros else m) x n id)

def growPath (m : Mem) (x : Inode) : List Node → Bool × Mem × Inode
  | [] => (true,m,x)
  | n :: ns =>
    match grow m x n with
    | none => (false,m,x)
    | some (m,x) => growPath m x ns

section Grow
variable {m : Mem} {x : Inode} {n : Node}

theorem grow_present (hn : nodePtr m x n ≠ 0) : grow m x n = some (m,x) := if_pos hn

theorem grow_full (hn : nodePtr m x n = 0) (hf : firstFree m = sizeMax) : grow m x n = none := by
  rw [grow, if_neg (not_not.mpr hn)]
  simp only [hf, if_true]

theorem grow_fresh (hn : nodePtr m x n = 0) (hf : firstFree m ≠ sizeMax) :
    grow m x n = some (assign (if n.isCleared then putBlock (setUsed m (firstFree m)) (firstFree m) zeros
      else setUsed m (firstFree m)) x n (firstFree m)) := by
  rw [grow, if_neg (not_not.mpr hn)]
  simp only [hf, if_false]

theorem growPath_nil : growPath m x [] = (true,m,x) := rfl

theorem growPath_none {ns : List Node} (h : grow m x n = none) : growPath m x (n :: ns) = (false,m,x) := by
  rw [growPath, h]

theorem growPath_some {m₁ : Mem} {x₁ : Inode} {ns : List Node} (h : grow m x n = some (m₁,x₁)) :
    growPath m x (n :: ns) = growPath m₁ x₁ ns := by
  rw [growPath, h]

end Grow

structure Extends (m : Mem) (t : Table) (i : Fin 256) (m' : Mem) (x' : Inode) : Prop where
  sound : Sound m' (Function.update t i x')
  attrs : x'.attributes = (t i).attributes
  keeps : ∀ q, held m t q ≠ 0 → held m' (Function.update t i x') q = held m t q
  fresh : ∀ q, held m t q = 0 → held m' (Function.update t i x') q ≠ 0 →
    q.1 = i ∧ used m (held m' (Function.update t i x') q) = false
  mono : ∀ b < 65536, used m b = true → used m' b = true
  blocks : ∀ b, Allocated m b → (∀ n, held m t (i,n) ≠ b) → blockAt m' b = blockAt m b
  inodes : ∀ j < 256, inodeAt m' j = inodeAt m j
  inodeBits : ∀ j < 256, inodeUsed m' j = inodeUsed m j
  steps : SysSteps m m'

theorem attributes_fileType {x y : Inode} (h : x.attributes = y.attributes) : x.fileType = y.fileType := by
  have ht : x.attributes.fileType = y.attributes.fileType := by rw [h]
  exact ht

theorem Extends.refl {m : Mem} {t : Table} {i : Fin 256} (h : Sound m t) : Extends m t i m (t i) where
  sound := by rwa [Function.update_eq_self]
  attrs := rfl
  keeps q _ := by rw [Function.update_eq_self]
  fresh q h0 h1 := by
    rw [Function.update_eq_self] at h1
    exact absurd h0 h1
  mono _ _ h := h
  blocks _ _ _ := rfl
  inodes _ _ := rfl
  inodeBits _ _ := rfl
  steps := Relation.ReflTransGen.refl

theorem Extends.trans {m m₁ m₂ : Mem} {t : Table} {i : Fin 256} {x₁ x₂ : Inode} (h : Extends m t i m₁ x₁)
    (h' : Extends m₁ (Function.update t i x₁) i m₂ x₂) : Extends m t i m₂ x₂ := by
  obtain ⟨hs,ha,hk,hf,hm,hb,hi,hu,hc⟩ := h'
  rw [Function.update_idem] at hs hk hf
  rw [Function.update_self] at ha
  constructor
  · exact hs
  · exact ha.trans h.attrs
  · intro q hq
    have h1 := h.keeps q hq
    rw [hk q (by rwa [h1]), h1]
  · intro q h0 h2
    by_cases h1 : held m₁ (Function.update t i x₁) q = 0
    · obtain ⟨hqi,hu1⟩ := hf q h1 h2
      refine ⟨hqi,?_⟩
      by_contra hne
      have hlt : held m₂ (Function.update t i x₂) q < 65528 := (hs.own.dataId h2).2
      rw [h.mono _ (by omega) (by simpa using hne)] at hu1
      cases hu1
    · obtain ⟨hqi,hu1⟩ := h.fresh q h0 h1
      rw [hk q h1]
      exact ⟨hqi,hu1⟩
  · exact fun b hlt hb' => hm b hlt (h.mono b hlt hb')
  · intro b hal hn
    rw [hb b ⟨hal.1,h.mono b (by have := hal.1.2; omega) hal.2⟩, h.blocks b hal hn]
    intro n he
    by_cases h0 : held m t (i,n) = 0
    · have hne : held m₁ (Function.update t i x₁) (i,n) ≠ 0 := he ▸ hal.1.ne_zero
      have hu1 := (h.fresh _ h0 hne).2
      rw [he, hal.2] at hu1
      cases hu1
    · exact hn n ((h.keeps _ h0).symm.trans he)
  · exact fun j hj => (hi j hj).trans (h.inodes j hj)
  · exact fun j hj => (hu j hj).trans (h.inodeBits j hj)
  · exact h.steps.trans hc

/-- What `grow` does to an empty node `n` of file `i`. -/
structure GrownAt (m : Mem) (t : Table) (i : Fin 256) (n : Node) (id : ℕ) (m' : Mem) (x' : Inode) : Prop where
  data : DataId id
  free : used m id = false
  attrs : x'.attributes = (t i).attributes
  holds : ∀ q, held m' (Function.update t i x') q = if q = (i,n) then id else held m t q
  marks : ∀ b < 65536, used m' b = (decide (id = b) || used m b)
  blocks : ∀ b, DataId b → b ≠ id → (∀ p j, n.parent = some (p,j) → nodePtr m (t i) p ≠ b) →
    blockAt m' b = blockAt m b
  inodes : ∀ j < 256, inodeAt m' j = inodeAt m j
  inodeBits : ∀ j < 256, inodeUsed m' j = inodeUsed m j
  steps : SysSteps m m'

theorem attributes_assign {m : Mem} {x : Inode} {n : Node} {v : ℕ} :
    (assign m x n v).2.attributes = x.attributes := by
  cases hn : n.parent with
  | none =>
    simp only [assign, hn]
    cases n <;> simp only [Inode.setTop] <;> (try split_ifs) <;> rfl
  | some pj => simp only [assign, hn]

/-- The image with block `id` marked, and cleared where node `n` asks for it. -/
def takeBlock (m : Mem) (n : Node) (id : ℕ) : Mem :=
  if n.isCleared then putBlock (setUsed m id) id zeros else setUsed m id

section Take
variable {m : Mem} {t : Table} {x : Inode} {n : Node} {id b j : ℕ}

theorem held_takeBlock (ho : Owned m t) (hfr : ∀ q, held m t q ≠ id) (q : Place) :
    held (takeBlock m n id) t q = held m t q := by
  have hheld : ∀ q, held (setUsed m id) t q = held m t q := held_setUsed ho
  rw [takeBlock]
  split_ifs
  · rw [held_putBlock (fun q _ _ _ _ => (hheld q).symm ▸ hfr q), hheld]
  · exact hheld q

theorem owned_takeBlock (ho : Owned m t) (hid : DataId id) (hfr : ∀ q, held m t q ≠ id) :
    Owned (takeBlock m n id) t := by
  have hheld : ∀ q, held (setUsed m id) t q = held m t q := held_setUsed ho
  rw [takeBlock]
  split_ifs
  · exact ho.setUsed.putBlock hid (fun q _ _ _ _ => (hheld q).symm ▸ hfr q)
  · exact ho.setUsed

theorem blockAt_takeBlock (hb : DataId b) (hne : b ≠ id) : blockAt (takeBlock m n id) b = blockAt m b := by
  rw [takeBlock]
  split_ifs
  · rw [blockAt_putBlock, if_neg (Ne.symm hne), blockAt_setUsed hb]
  · rw [blockAt_setUsed hb]

/-- A block that is to hold pointers is clear. -/
theorem blockAt_takeBlock_self (hid : DataId id) (hz : ∀ k, n = .sec k → blockAt m id = zeros) {n' : Node}
    (hpar : n'.parent = some (n,j)) : blockAt (takeBlock m n id) id = zeros := by
  have hclear : blockAt (putBlock (setUsed m id) id zeros) id = zeros := by
    rw [blockAt_putBlock, if_pos rfl]
    funext k
    simp [window, zeros]
  cases n with
  | data b => exact absurd rfl (Node.parent_ne_data hpar)
  | ind | dbl => exact hclear
  | sec k =>
    rw [← hz k rfl]
    exact blockAt_setUsed hid

theorem used_takeBlock (hid : DataId id) (hb : b < 65536) :
    used (takeBlock m n id) b = (decide (id = b) || used m b) := by
  rw [takeBlock]
  split_ifs
  · rw [used_putBlock hid hb, used_setUsed]
  · rw [used_setUsed]

theorem inodeAt_takeBlock (hid : DataId id) (hj : j < 256) : inodeAt (takeBlock m n id) j = inodeAt m j := by
  rw [takeBlock]
  split_ifs
  · rw [inodeAt_putBlock hid hj, inodeAt_setUsed hj]
  · rw [inodeAt_setUsed hj]

theorem inodeUsed_takeBlock (hid : DataId id) (hj : j < 256) :
    inodeUsed (takeBlock m n id) j = inodeUsed m j := by
  rw [takeBlock]
  split_ifs
  · rw [inodeUsed_putBlock hid hj, inodeUsed_setUsed hj]
  · rw [inodeUsed_setUsed hj]

theorem SysSteps.takeBlock (hf : firstFree m ≠ sizeMax) (hid : DataId (firstFree m)) :
    SysSteps m (takeBlock m n (firstFree m)) := by
  rw [LiteOSFS.takeBlock]
  split_ifs
  · exact (SysSteps.setUsed hf).trans (SysSteps.putBlock hid _)
  · exact SysSteps.setUsed hf

theorem inodeAt_assign (hp : ∀ p j, n.parent = some (p,j) → DataId (nodePtr m x p)) (hj : j < 256) :
    inodeAt (assign m x n id).1 j = inodeAt m j := by
  cases hpar : n.parent with
  | none => simp only [assign, hpar]
  | some pj =>
    simp only [assign, hpar]
    exact inodeAt_putBlock (hp _ _ hpar) hj

theorem inodeUsed_assign (hp : ∀ p j, n.parent = some (p,j) → DataId (nodePtr m x p)) (hj : j < 256) :
    inodeUsed (assign m x n id).1 j = inodeUsed m j := by
  cases hpar : n.parent with
  | none => simp only [assign, hpar]
  | some pj =>
    simp only [assign, hpar]
    exact inodeUsed_putBlock (hp _ _ hpar) hj

theorem SysSteps.assign (hp : ∀ p j, n.parent = some (p,j) → DataId (nodePtr m x p)) :
    SysSteps m (assign m x n id).1 := by
  cases hpar : n.parent with
  | none =>
    simp only [LiteOSFS.assign, hpar]
    exact Relation.ReflTransGen.refl
  | some pj =>
    simp only [LiteOSFS.assign, hpar]
    exact SysSteps.putBlock (hp _ _ hpar) _

end Take

theorem grow_missing {m m' : Mem} {t : Table} {i : Fin 256} {n : Node} {x' : Inode} (hs : Sound m t)
    (hfile : (t i).fileType ≠ typeDirectory) (hn : nodePtr m (t i) n = 0)
    (hp : ∀ p j, n.parent = some (p,j) → nodePtr m (t i) p ≠ 0 ∧ j < 512)
    (hz : ∀ k, n = .sec k → blockAt m (firstFree m) = zeros)
    (h : grow m (t i) n = some (m',x')) : GrownAt m t i n (firstFree m) m' x' := by
  by_cases hf : firstFree m = sizeMax
  · rw [grow_full hn hf] at h
    cases h
  obtain ⟨hid,hu,_⟩ := firstFree_spec hs.sys hf
  have hsteps : SysSteps m (takeBlock m n (firstFree m)) := SysSteps.takeBlock hf hid
  rw [grow_fresh hn hf, ← takeBlock] at h
  generalize firstFree m = id at *
  have hfr := hs.own.fresh hid.ne_zero hu
  have hheld : ∀ q, held (takeBlock m n id) t q = held m t q := held_takeBlock hs.own hfr
  have hown : Owned (takeBlock m n id) t := owned_takeBlock hs.own hid hfr
  have hptr : ∀ n', nodePtr (takeBlock m n id) (t i) n' = nodePtr m (t i) n' := by
    intro n'
    have he := hheld (i,n')
    simpa only [held, owns_of_file hfile] using he
  have hparent : ∀ p j, n.parent = some (p,j) → DataId (nodePtr (takeBlock m n id) (t i) p) := by
    intro p j hpar
    have he : held (takeBlock m n id) t (i,p) = nodePtr (takeBlock m n id) (t i) p := owns_of_file hfile
    rw [← he]
    exact hown.dataId (by rw [he, hptr]; exact (hp p j hpar).1)
  obtain ⟨rfl,rfl⟩ : m' = (assign (takeBlock m n id) (t i) n id).1 ∧ x' = (assign (takeBlock m n id) (t i) n id).2 := by
    have he := Option.some.inj h
    exact ⟨(congrArg Prod.fst he).symm,(congrArg Prod.snd he).symm⟩
  refine ⟨hid,hu,attributes_assign,fun q => ?_,fun b hb => ?_,fun b hb hne hpar => ?_,fun j hj => ?_,
    fun j hj => ?_,hsteps.trans (SysSteps.assign hparent)⟩
  · rw [held_assign hown hfile (by rw [hptr, hn]) (fun p j hpar => by rw [hptr]; exact hp p j hpar)
      (fun q => by rw [hheld]; exact hfr q) hid (fun n' j hpar => blockAt_takeBlock_self hid hz hpar), hheld]
  · rw [used_assign hparent hb, used_takeBlock hid hb]
  · rw [blockAt_assign (fun p j hp' => by rw [hptr]; exact hpar p j hp'), blockAt_takeBlock hb hne]
  · rw [inodeAt_assign hparent hj, inodeAt_takeBlock hid hj]
  · rw [inodeUsed_assign hparent hj, inodeUsed_takeBlock hid hj]

theorem GrownAt.extends {m m' : Mem} {t : Table} {i : Fin 256} {n : Node} {id : ℕ} {x' : Inode} (hs : Sound m t)
    (hfile : (t i).fileType ≠ typeDirectory) (hn : nodePtr m (t i) n = 0) (g : GrownAt m t i n id m' x') :
    Extends m t i m' x' := by
  have hfr := hs.own.fresh g.data.ne_zero g.free
  have hin : held m t (i,n) = 0 := (owns_of_file hfile).trans hn
  have hmono : ∀ b < 65536, used m b = true → used m' b = true := by
    intro b hb hu
    rw [g.marks b hb, hu, Bool.or_true]
  have hlt := g.data.2
  have hown : Owned m' (Function.update t i x') := by
    apply hs.own.assign hfr (a := (i,n)) (v := id)
    · exact ⟨g.data,by rw [g.marks id (by omega), decide_eq_true rfl, Bool.true_or]⟩
    · exact fun b hb => ⟨hb.1,hmono b (by have := hb.1.2; omega) hb.2⟩
    · rw [g.holds, if_pos rfl]
    · intro q hq
      rw [g.holds, if_neg hq]
  refine ⟨⟨g.steps.sysUsed hs.sys,hown⟩,g.attrs,fun q hq => ?_,fun q h0 h1 => ?_,hmono,fun b hal hnb => ?_,
    g.inodes,g.inodeBits,g.steps⟩
  · rw [g.holds, if_neg]
    rintro rfl
    exact hq hin
  · rw [g.holds] at h1 ⊢
    split_ifs at h1 ⊢ with hq
    · exact ⟨congrArg Prod.fst hq,g.free⟩
    · exact absurd h0 h1
  · refine g.blocks b hal.1 ?_ (fun p j hpar => ?_)
    · rintro rfl
      have hf := g.free
      rw [hal.2] at hf
      cases hf
    · have he : held m t (i,p) = nodePtr m (t i) p := owns_of_file hfile
      rw [← he]
      exact hnb p

end LiteOSFS
