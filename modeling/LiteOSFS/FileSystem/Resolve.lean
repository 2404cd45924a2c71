import LiteOSFS.FileSystem.EntryMap
import LiteOSFS.Library.EntryGraph

/-! # The walk of fs_open and fs_create follows a path

The walk counts its matches and goes on after a miss. When the names in each directory
are distinct it matches every component exactly when there is a path of that name from
the root, and then ends where the path does.
-/
namespace LiteOSFS
open Memory CString Ownership EntryGraph

/-- Every directory's block number is one that `block_store_read` takes. -/
def DirsReadable (m : Mem) : Prop := ∀ d < 256, (inodeAt m d).fileType = typeDirectory → (inodeAt m d).dirBlock ≤ 65528

theorem ImageInv.dirsReadable {m : Mem} (h : ImageInv m) : DirsReadable m := fun _ hd _ => h.dirBlock_le hd

/-- The inode that `fs_open` finds under a path. -/
def resolve (m : Mem) (tokens : List CStr) : Option ℕ :=
  if (walk m tokens).indicator = tokens.length then some (walk m tokens).inodeID else none

section Matching
variable {m : Mem} {d j i : ℕ} {name : CStr}

theorem mem_matching (hd : d < 256) (hdir : (inodeAt m d).fileType = typeDirectory) :
    j ∈ matching m d name ↔ ∃ i, entryAt m d j = some (name,i) := by
  rw [matching, List.mem_filter, List.mem_range, Bool.and_eq_true, beq_iff_eq]
  constructor
  · rintro ⟨hj,hlive,rfl⟩
    exact ⟨_,entryAt_live hd hj hdir hlive⟩
  · rintro ⟨i,he⟩
    obtain ⟨⟨_,hj,_,hlive⟩,hname,_⟩ := entryAt_eq_some.mp he
    exact ⟨hj,hlive,hname⟩

theorem nodup_matching : (matching m d name).Nodup := List.nodup_range.filter _

/-- A name stands in one slot. -/
theorem matching_eq_singleton (hE : Distinct (entryAt m)) (he : entryAt m d j = some (name,i)) :
    matching m d name = [j] := by
  obtain ⟨⟨hd,_,hdir,_⟩,_⟩ := entryAt_eq_some.mp he
  apply List.perm_singleton.mp
  refine (List.perm_ext_iff_of_nodup nodup_matching (List.nodup_singleton j)).mpr (fun k => ?_)
  rw [mem_matching hd hdir, List.mem_singleton]
  constructor
  · rintro ⟨i',hk⟩
    exact hE _ _ _ _ _ _ hk he
  · rintro rfl
    exact ⟨i,he⟩

theorem matching_eq_nil (hd : d < 256) (hdir : (inodeAt m d).fileType = typeDirectory)
    (h : ∀ i, ¬ Edge (entryAt m) d name i) : matching m d name = [] := by
  apply List.eq_nil_iff_forall_not_mem.mpr
  intro j hj
  obtain ⟨i,he⟩ := (mem_matching hd hdir).mp hj
  exact h i ⟨j,he⟩

theorem edge_directory (h : Edge (entryAt m) d name i) : d < 256 ∧ (inodeAt m d).fileType = typeDirectory := by
  obtain ⟨j,he⟩ := h
  obtain ⟨⟨hd,_,hdir,_⟩,_⟩ := entryAt_eq_some.mp he
  exact ⟨hd,hdir⟩

/-- A name that no slot in use has. -/
theorem no_edge_iff (hd : d < 256) (hdir : (inodeAt m d).fileType = typeDirectory) : (∀ e, ¬ Edge (entryAt m) d name e) ↔
    ∀ j < 31, (inodeAt m d).live j = true → entryName (blockAt m (inodeAt m d).dirBlock) j ≠ name := by
  constructor
  · rintro h j hj hlive rfl
    exact h _ ⟨j,entryAt_live hd hj hdir hlive⟩
  · rintro h e ⟨j,he⟩
    obtain ⟨⟨_,hj,_,hlive⟩,hn,_⟩ := entryAt_eq_some.mp he
    exact h j hj hlive hn

theorem edge_lt (h : Edge (entryAt m) d name i) : i < 256 := by
  obtain ⟨j,he⟩ := h
  exact entryAt_lt he

end Matching

section Walk
variable {m : Mem} {w : Walk} {token : CStr} {tokens : List CStr} {i : ℕ}

theorem walkStep_edge (hb : DirsReadable m) (hE : Distinct (entryAt m)) (he : Edge (entryAt m) w.inodeID token i) :
    (walkStep m w token).inodeID = i ∧ (walkStep m w token).indicator = w.indicator + 1 := by
  obtain ⟨hw,hdir⟩ := edge_directory he
  obtain ⟨j,hj⟩ := he
  rw [walkStep_directory hw (hb _ hw hdir) hdir, matching_eq_singleton hE hj]
  exact ⟨(entryAt_eq_some.mp hj).2.2,rfl⟩

theorem walkStep_miss (hb : DirsReadable m) (hw : w.inodeID < 256) (h : ∀ i, ¬ Edge (entryAt m) w.inodeID token i) :
    (walkStep m w token).inodeID = w.inodeID ∧ (walkStep m w token).indicator = w.indicator := by
  by_cases hdir : (inodeAt m w.inodeID).fileType = typeDirectory
  · rw [walkStep_directory hw (hb _ hw hdir) hdir, matching_eq_nil hw hdir h]
    exact ⟨rfl,rfl⟩
  · rw [walkStep_file hw hdir]
    exact ⟨rfl,rfl⟩

/-- The counter falls behind for good with the first component that is missing. -/
theorem foldl_walkStep (hb : DirsReadable m) (hE : Distinct (entryAt m)) (hw : w.inodeID < 256) (tokens : List CStr) :
    (tokens.foldl (walkStep m) w).indicator ≤ w.indicator + tokens.length ∧
      ((tokens.foldl (walkStep m) w).indicator = w.indicator + tokens.length →
        Path (entryAt m) w.inodeID tokens (tokens.foldl (walkStep m) w).inodeID) ∧
      ∀ i, Path (entryAt m) w.inodeID tokens i →
        (tokens.foldl (walkStep m) w).inodeID = i ∧
          (tokens.foldl (walkStep m) w).indicator = w.indicator + tokens.length := by
  induction tokens generalizing w with
  | nil => exact ⟨le_rfl,fun _ => Path.nil _,fun i hi => ⟨path_nil.mp hi,rfl⟩⟩
  | cons token tokens ih =>
    simp only [List.foldl_cons, List.length_cons]
    by_cases hmiss : ∀ i, ¬ Edge (entryAt m) w.inodeID token i
    · obtain ⟨hid,hind⟩ := walkStep_miss hb hw hmiss
      have hle := (ih (w := walkStep m w token) (by rwa [hid])).1
      rw [hind] at hle
      refine ⟨by omega,fun h => by omega,fun i hi => ?_⟩
      obtain ⟨e,he,_⟩ := path_cons.mp hi
      exact absurd he (hmiss e)
    · push Not at hmiss
      obtain ⟨e,he⟩ := hmiss
      obtain ⟨hid,hind⟩ := walkStep_edge hb hE he
      obtain ⟨hle,hpath,hend⟩ := ih (w := walkStep m w token) (by rw [hid]; exact edge_lt he)
      rw [hid, hind] at hpath
      rw [hind] at hle
      rw [hid, hind] at hend
      refine ⟨by omega,fun h => path_cons.mpr ⟨e,he,hpath (by omega)⟩,fun i hi => ?_⟩
      obtain ⟨e',he',hi⟩ := path_cons.mp hi
      obtain rfl := hE.edge_unique he he'
      obtain ⟨h1,h2⟩ := hend i hi
      exact ⟨h1,by omega⟩

theorem resolve_eq_some (hb : DirsReadable m) (hE : Distinct (entryAt m)) :
    resolve m tokens = some i ↔ Path (entryAt m) 0 tokens i := by
  obtain ⟨_,hpath,hend⟩ := foldl_walkStep (w := ⟨0,0,zeros⟩) hb hE (show 0 < 256 by omega) tokens
  simp only [Nat.zero_add] at hpath hend
  unfold resolve
  constructor
  · intro h
    split_ifs at h with hind
    obtain rfl := Option.some.inj h
    exact hpath hind
  · intro h
    obtain ⟨hid,hind⟩ := hend i h
    rw [if_pos (show (walk m tokens).indicator = tokens.length from hind)]
    exact congrArg some hid

theorem walk_of_path (hb : DirsReadable m) (hE : Distinct (entryAt m)) (h : Path (entryAt m) 0 tokens i) :
    (walk m tokens).inodeID = i ∧ (walk m tokens).indicator = tokens.length := by
  have hr := (resolve_eq_some hb hE).mpr h
  unfold resolve at hr
  split_ifs at hr with hind
  exact ⟨Option.some.inj hr,hind⟩

end Walk

end LiteOSFS
