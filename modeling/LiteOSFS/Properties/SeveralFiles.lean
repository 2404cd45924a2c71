import LiteOSFS.FileSystem.Sessions
import LiteOSFS.Library.Answers

/-! # Many files, many mounts

In a process that formats, mounts and unmounts files in any order, each file that it has
formatted keeps the invariant of an image, also when several objects share it. When each
file has one object at a time, it answers as a file system of its own does.
-/
namespace LiteOSFS
open Memory CString Transition Function

/-- For each formatted file the calls made on it since, with what they gave back. -/
abbrev History (F : Type*) := F → Option (List ((Call ⊕ Option PathArg) × Reply))

section History
variable {F : Type*} [DecidableEq F] (locate : CStr → F)

/-- A history begins with `fs_format` and goes on with `fs_mount` and the calls on an object of the file. -/
def historyAfter (h : Host F) (hist : History F) : HostCall → History F
  | .format (some p) _ => if p.chars = [] then hist else update hist (locate p.chars) (some [])
  | .mount (some p) _ => if p.chars = [] then hist
      else update hist (locate p.chars) ((hist (locate p.chars)).map (fun l => l ++ [(.inl .remount,.code 0)]))
  | .api a c => (h.object a).elim hist (fun p => (reply p.2 c).elim hist
      (fun r => update hist p.1 ((hist p.1).map (fun l => l ++ [(c,r.1)]))))
  | _ => hist

/-- The calls on objects meet a condition in the state that they see. -/
def Respects (G : F19FS → Call → Prop) (h : Host F) : HostCall → Prop
  | .api a (.inl c) => ∀ p ∈ h.object a, G p.2 c
  | _ => True

/-- No file is formatted or mounted that an object has. -/
def Exclusive (h : Host F) : HostCall → Prop
  | .format path _ => ∀ p ∈ path, ∀ a, ∀ o ∈ h.mounted a, o.whole ≠ some (locate p.chars)
  | .mount path _ => ∀ p ∈ path, ∀ a, ∀ o ∈ h.mounted a, o.whole ≠ some (locate p.chars)
  | _ => True

/-- A host and the histories on the side. -/
abbrev Sessions (guard : Host F → HostCall → Prop) : Host F × History F → Host F × History F → Prop :=
  Reach (ghost (hostStep locate) (historyAfter locate)) (fun q => guard q.1)

end History

section Objects
variable {F : Type*} {h h' : Host F} {f : F} {a : ℕ} {s : F19FS} {G : F19FS → Call → Prop} {m : ℕ → Option (Mounted F)}
  {l : List ((Call ⊕ Option PathArg) × Reply)}

theorem object_eq_some : h.object a = some (f,s) ↔ ∃ file, h.mounted a = some ⟨some f,s.fdTable⟩ ∧ h.files f = some file ∧
    file.bytes = s.image := by
  constructor
  · intro ho
    obtain ⟨⟨whole,fd⟩,hm,ho⟩ := Option.bind_eq_some_iff.mp ho
    obtain ⟨f',hw,ho⟩ := Option.bind_eq_some_iff.mp ho
    obtain ⟨file,hf,he⟩ := Option.map_eq_some_iff.mp ho
    cases he
    obtain rfl : whole = some f := hw
    exact ⟨file,hm,hf,rfl⟩
  · rintro ⟨file,hm,hf,hb⟩
    rw [Host.object, hm, Option.bind_some, Option.bind_some, hf, Option.map_some, hb]

/-- No two objects have one file. -/
def OneEach (mounted : ℕ → Option (Mounted F)) : Prop :=
  ∀ a b o o' f, mounted a = some o → mounted b = some o' → o.whole = some f → o'.whole = some f → a = b

theorem OneEach.update (hone : OneEach m) {o : Mounted F}
    (hno : ∀ b ≠ a, ∀ o', m b = some o' → ∀ f, o.whole = some f → o'.whole ≠ some f) : OneEach (update m a (some o)) := by
  intro x y o₁ o₂ f hx hy hwx hwy
  rw [update_apply] at hx hy
  split_ifs at hx hy with hxa hya
  · exact hxa.trans hya.symm
  · cases hx
    exact absurd hwy (hno y hya o₂ hy f hwx)
  · cases hy
    exact absurd hwx (hno x hxa o₁ hx f hwy)
  · exact hone x y o₁ o₂ f hx hy hwx hwy

/-- The history of a file, replayed on a formatted file system, gives its bytes and the descriptors of its object. -/
def Replayed (G : F19FS → Call → Prop) (h : Host F) (f : F) (l : List ((Call ⊕ Option PathArg) × Reply)) : Prop :=
  ∃ file s, h.files f = some file ∧ file.length = 65536 * 1024 ∧ Replays reply fsFormat l s ∧ Reach step G fsFormat s ∧
    s.image = file.bytes ∧ ∀ a o, h.mounted a = some o → o.whole = some f → o.fdTable = s.fdTable

/-- Objects of other files come and go. -/
theorem Replayed.frame (hr : Replayed G h f l) (hfile : h'.files f = h.files f)
    (hm : ∀ a o, h'.mounted a = some o → o.whole = some f → h.mounted a = some o) : Replayed G h' f l := by
  obtain ⟨file,s,hf,hlen,hrep,hreach,him,htab⟩ := hr
  exact ⟨file,s,hfile.trans hf,hlen,hrep,hreach,him,fun a o ho hw => htab a o (hm a o ho hw) hw⟩

theorem mounted_of_update {o o' : Mounted F} {b : ℕ} (h : update m a (some o) b = some o') (hw : o'.whole = some f)
    (hne : o.whole ≠ some f) : m b = some o' := by
  rw [update_apply] at h
  split_ifs at h
  · cases h
    exact absurd hw hne
  · exact h

/-- The object that is new is the only one of its file. -/
theorem table_of_update {o o' : Mounted F} {b : ℕ} (h : update m a (some o) b = some o') (hw : o'.whole = some f)
    (hno : ∀ b, ∀ o ∈ m b, o.whole ≠ some f) : o' = o := by
  rw [update_apply] at h
  split_ifs at h
  · exact (Option.some.inj h).symm
  · exact absurd hw (hno b o' h)

end Objects

section Steps
variable {F : Type*} [DecidableEq F] {locate : CStr → F} {h h' : Host F} {hist : History F} {e : HostCall} {f : F} {a : ℕ}
  {s : F19FS}

/-- What a call of the process does: nothing, or one of these. -/
inductive HostEffect (locate : CStr → F) (h : Host F) (hist : History F) : HostCall → Host F → History F → Prop where
  | refused {e : HostCall} : HostEffect locate h hist e h hist
  | format {p : PathArg} {a : ℕ} : p.chars ≠ [] → h.mounted a = none → HostEffect locate h hist (.format (some p) a)
      { files := update h.files (locate p.chars) (some ⟨65536 * 1024,fsFormat.image⟩),
        mounted := update h.mounted a (some ⟨some (locate p.chars),fsFormat.fdTable⟩) }
      (update hist (locate p.chars) (some []))
  | mount {p : PathArg} {a : ℕ} : p.chars ≠ [] → h.mounted a = none → HostEffect locate h hist (.mount (some p) a)
      { h with mounted := update h.mounted a (some ⟨blockStoreOpen locate h p.chars,blockStoreFdCreate⟩) }
      (update hist (locate p.chars) ((hist (locate p.chars)).map (fun l => l ++ [(.inl .remount,.code 0)])))
  | unmount {a : ℕ} : HostEffect locate h hist (.unmount (some a)) { h with mounted := update h.mounted a none } hist
  | api {a : ℕ} {c : Call ⊕ Option PathArg} {f : F} {s s' : F19FS} {r : Reply} : h.object a = some (f,s) →
      reply s c = some (r,s') → HostEffect locate h hist (.api a c) (h.store a f s')
        (update hist f ((hist f).map (fun l => l ++ [(c,r)])))

theorem hostStep_cases (hs : hostStep locate h e = some h') : HostEffect locate h hist e h' (historyAfter locate h hist e) := by
  obtain ⟨⟨r,h₁⟩,hc,rfl⟩ := Option.map_eq_some_iff.mp hs
  cases e with
  | format path a =>
    rw [hostCall] at hc
    split_ifs at hc with ha
    cases hc
    have ha := Option.not_isSome_iff_eq_none.mp ha
    cases path with
    | none => exact .refused
    | some p =>
      show HostEffect locate h hist _ (if p.chars = [] then _ else _ : Option ℕ × Host F).2 (if p.chars = [] then _ else _)
      split_ifs with hp
      · exact .refused
      · dsimp only
        rw [blockStoreCreateFile_bytes, formatStore_create, blockStoreCreateFile_length]
        exact .format hp ha
  | mount path a =>
    rw [hostCall] at hc
    split_ifs at hc with ha
    cases hc
    have ha := Option.not_isSome_iff_eq_none.mp ha
    cases path with
    | none => exact .refused
    | some p =>
      show HostEffect locate h hist _ (if p.chars = [] then _ else _ : Option ℕ × Host F).2 (if p.chars = [] then _ else _)
      split_ifs with hp
      · exact .refused
      · exact .mount hp ha
  | unmount fs =>
    obtain ⟨⟨ret,h₂⟩,hu,he⟩ := Option.map_eq_some_iff.mp hc
    cases he
    cases fs with
    | none =>
      cases hu
      exact .refused
    | some a =>
      obtain ⟨o,_,he⟩ := Option.map_eq_some_iff.mp hu
      cases he
      exact .unmount
  | api a c =>
    have hc : (h.object a).bind (fun p => (reply p.2 c).map (fun r => (r.1,h.store a p.1 r.2))) = some (r,h₁) := by
      rcases c with c | path
      · cases c with
        | remount => cases hc
        | _ => exact hc
      · exact hc
    obtain ⟨⟨f,s⟩,ho,hc⟩ := Option.bind_eq_some_iff.mp hc
    obtain ⟨⟨r,s'⟩,hr,he⟩ := Option.map_eq_some_iff.mp hc
    cases he
    rw [historyAfter, ho, Option.elim_some]
    dsimp only
    rw [hr, Option.elim_some]
    exact .api ho hr

/-- The files formatted are images in order, whichever objects have them. -/
def HoldsImages (q : Host F × History F) : Prop := ∀ f l, q.2 f = some l →
  ∃ file, q.1.files f = some file ∧ file.length = 65536 * 1024 ∧ ImageInv file.bytes

theorem isSome_history_update {l : List ((Call ⊕ Option PathArg) × Reply)} {x : (Call ⊕ Option PathArg) × Reply} {g : F}
    (hl : update hist f ((hist f).map (fun l => l ++ [x])) g = some l) : ∃ l', hist g = some l' := by
  rw [update_apply] at hl
  split_ifs at hl with hg
  · obtain ⟨l',hl',_⟩ := Option.map_eq_some_iff.mp hl
    exact ⟨l',hg ▸ hl'⟩
  · exact ⟨l,hl⟩

theorem HostEffect.holdsImages {hist' : History F} (he : HostEffect locate h hist e h' hist') (hg : Respects Safe h e)
    (hI : HoldsImages (h,hist)) : HoldsImages (h',hist') := by
  intro f l hl
  cases he with
  | refused => exact hI f l hl
  | @format p a _ _ =>
    show ∃ file, update h.files (locate p.chars) _ f = some file ∧ _
    by_cases hf : f = locate p.chars
    · rw [hf, update_self]
      exact ⟨_,rfl,rfl,fsFormat_inv⟩
    · have hl : update hist (locate p.chars) (some []) f = some l := hl
      rw [update_of_ne hf] at hl ⊢
      exact hI f l hl
  | mount =>
    obtain ⟨l',hl'⟩ := isSome_history_update hl
    exact hI f l' hl'
  | unmount => exact hI f l hl
  | @api a c g s s' r ho hr =>
    obtain ⟨l',hl'⟩ := isSome_history_update hl
    obtain ⟨file,hf,hlen,hi⟩ := hI f l' hl'
    show ∃ file, update h.files g ((h.files g).map _) f = some file ∧ _
    by_cases hfg : f = g
    · obtain ⟨file',_,hf',hb⟩ := object_eq_some.mp ho
      rw [hfg, hf'] at hf
      obtain rfl := Option.some.inj hf
      rw [hb] at hi
      rw [hfg, update_self, hf', Option.map_some]
      refine ⟨_,rfl,hlen,?_⟩
      show ImageInv s'.image
      cases c with
      | inl c => exact (step_inv hi (hg _ ho) (reply_call hr)).1
      | inr path =>
        rw [reply_getDir hr]
        exact hi
    · rw [update_of_ne hfg]
      exact ⟨file,hf,hlen,hi⟩

/-- Files have one object at a time, and their histories explain what they hold. -/
structure Separate (G : F19FS → Call → Prop) (q : Host F × History F) : Prop where
  one : OneEach q.1.mounted
  replay : ∀ f l, q.2 f = some l → Replayed G q.1 f l

section Separate
variable {G : F19FS → Call → Prop}

theorem Separate.format {p : PathArg} (hS : Separate G (h,hist)) (hx : Exclusive locate h (.format (some p) a)) :
    Separate G ({ files := update h.files (locate p.chars) (some ⟨65536 * 1024,fsFormat.image⟩),
                  mounted := update h.mounted a (some ⟨some (locate p.chars),fsFormat.fdTable⟩) },
      update hist (locate p.chars) (some [])) := by
  have hno := hx p rfl
  refine ⟨hS.one.update (fun b _ o' ho' f hf => ?_),fun f l hl => ?_⟩
  · rw [← hf]
    exact hno b o' ho'
  · have hl : update hist (locate p.chars) (some []) f = some l := hl
    by_cases hf : f = locate p.chars
    · subst hf
      rw [update_self] at hl
      cases hl
      refine ⟨_,fsFormat,update_self _ _ _,rfl,.nil,.refl,rfl,fun b o ho hw => ?_⟩
      rw [table_of_update ho hw hno]
    · rw [update_of_ne hf] at hl
      refine (hS.replay f l hl).frame (update_of_ne hf _ _) (fun b o ho hw => mounted_of_update ho hw ?_)
      exact fun hc => hf (Option.some.inj hc).symm

theorem Separate.mount {p : PathArg} (hS : Separate G (h,hist)) (hG : ∀ s, G s .remount)
    (hx : Exclusive locate h (.mount (some p) a)) :
    Separate G ({ h with mounted := update h.mounted a (some ⟨blockStoreOpen locate h p.chars,blockStoreFdCreate⟩) },
      update hist (locate p.chars) ((hist (locate p.chars)).map (fun l => l ++ [(.inl .remount,.code 0)]))) := by
  have hno := hx p rfl
  have hopen : ∀ {f}, blockStoreOpen locate h p.chars = some f → f = locate p.chars := by
    intro f hf
    rw [blockStoreOpen] at hf
    split_ifs at hf
    exact (Option.some.inj hf).symm
  refine ⟨hS.one.update (fun b _ o' ho' f hf => ?_),fun f l hl => ?_⟩
  · rw [hopen hf]
    exact hno b o' ho'
  · have hl : update hist (locate p.chars) ((hist (locate p.chars)).map (fun l => l ++ [(.inl .remount,.code 0)])) f = some l := hl
    by_cases hf : f = locate p.chars
    · subst hf
      rw [update_self] at hl
      obtain ⟨l',hl',rfl⟩ := Option.map_eq_some_iff.mp hl
      obtain ⟨file,s,hf,hlen,hrep,hreach,him,_⟩ := hS.replay _ l' hl'
      refine ⟨file,fsMount s,hf,hlen,hrep.concat reply_remount,hreach.tail (hG s) rfl,him,fun b o ho hw => ?_⟩
      rw [table_of_update ho hw hno]
      rfl
    · rw [update_of_ne hf] at hl
      exact (hS.replay f l hl).frame rfl (fun b o ho hw => mounted_of_update ho hw (fun hc => hf (hopen hc)))

omit [DecidableEq F] in
theorem Separate.unmount (hS : Separate G (h,hist)) : Separate G ({ h with mounted := update h.mounted a none },hist) := by
  have hold : ∀ b o, update h.mounted a none b = some o → h.mounted b = some o := by
    intro b o hb
    rw [update_apply] at hb
    split_ifs at hb
    exact hb
  exact ⟨fun x y o o' f hx hy => hS.one x y o o' f (hold x o hx) (hold y o' hy),
    fun f l hl => (hS.replay f l hl).frame rfl (fun b o hb _ => hold b o hb)⟩

theorem Separate.api {c : Call ⊕ Option PathArg} {s' : F19FS} {r : Reply} (hS : Separate G (h,hist))
    (hg : Respects G h (.api a c)) (ho : h.object a = some (f,s)) (hr : reply s c = some (r,s')) :
    Separate G (h.store a f s',update hist f ((hist f).map (fun l => l ++ [(c,r)]))) := by
  obtain ⟨file,hm,hf,hb⟩ := object_eq_some.mp ho
  refine ⟨hS.one.update (fun b hba o' ho' g hg hg' => hba (hS.one b a o' _ g ho' hm hg' hg)),fun g l hl => ?_⟩
  have hl : update hist f ((hist f).map (fun l => l ++ [(c,r)])) g = some l := hl
  by_cases hgf : g = f
  · subst hgf
    rw [update_self] at hl
    obtain ⟨l',hl',rfl⟩ := Option.map_eq_some_iff.mp hl
    obtain ⟨file',t,hf',hlen,hrep,hreach,him,htab⟩ := hS.replay _ l' hl'
    have hf' : h.files g = some file' := hf'
    obtain rfl := Option.some.inj (hf.symm.trans hf')
    have hfd : s.fdTable = t.fdTable := htab a _ hm rfl
    -- the object sees the file system that the history leads to
    obtain rfl : s = t := by
      cases s
      cases t
      exact congrArg₂ F19FS.mk (hb.symm.trans him.symm) hfd
    refine ⟨{ file with bytes := s'.image },s',?_,hlen,hrep.concat hr,?_,rfl,fun b o ho' hw => ?_⟩
    · show update h.files g _ g = _
      rw [update_self, hf, Option.map_some]
    · cases c with
      | inl c => exact hreach.tail (hg _ ho) (reply_call hr)
      | inr path => rwa [reply_getDir hr]
    · have ho' : update h.mounted a (some ⟨some g,s'.fdTable⟩) b = some o := ho'
      rw [update_apply] at ho'
      split_ifs at ho' with hba
      · cases ho'
        rfl
      · exact absurd (hS.one b a o _ g ho' hm hw rfl) hba
  · rw [update_of_ne hgf] at hl
    refine (hS.replay g l hl).frame (update_of_ne hgf _ _) (fun b o ho' hw => mounted_of_update ho' hw ?_)
    exact fun hc => hgf (Option.some.inj hc).symm

theorem HostEffect.separate {hist' : History F} (he : HostEffect locate h hist e h' hist') (hG : ∀ s, G s .remount)
    (hx : Exclusive locate h e) (hg : Respects G h e) (hS : Separate G (h,hist)) : Separate G (h',hist') := by
  cases he with
  | refused => exact hS
  | format => exact hS.format hx
  | mount => exact hS.mount hG hx
  | unmount => exact hS.unmount
  | api ho hr => exact hS.api hg ho hr

end Separate

end Steps

section Runs
variable {F : Type*} [DecidableEq F] {locate : CStr → F} {h₀ h : Host F} {hist : History F} {f : F}
  {l : List ((Call ⊕ Option PathArg) × Reply)}

/-- In a process that makes safe calls, on files that may be mounted many times over, each file it has formatted is an
image in order. -/
theorem session_images (hr : Sessions locate (Respects Safe) (h₀,fun _ => none) (h,hist)) (hl : hist f = some l) :
    ∃ file, h.files f = some file ∧ file.length = 65536 * 1024 ∧ ImageInv file.bytes := by
  have h0 : HoldsImages (h₀,fun _ : F => none) := fun _ _ h0 => by cases h0
  refine hr.invariant (P := HoldsImages) h0 (fun hI hg hs => ?_) f l hl
  obtain ⟨hs,he⟩ := of_ghost hs
  have hI' := (hostStep_cases hs).holdsImages hg hI
  rwa [← he] at hI'

/-- A host without files, and a process without objects. -/
def emptyHost (F : Type*) : Host F := ⟨fun _ => none,fun _ => none⟩

/-- Two objects have the file, and a name made through the first is seen through the second. -/
theorem session_images_shared : ∃ (h : Host CStr) (hist : History CStr) (l : List ((Call ⊕ Option PathArg) × Reply)),
    run (ghost (hostStep id) (historyAfter id)) (emptyHost CStr,fun _ => none) [.format (pathArg ['x']) 0,
      .mount (pathArg ['x']) 1,.api 0 (.inl (.create (pathArg ['/','a']) .regular)),.api 1 (.inr (pathArg ['/']))] =
        some (h,hist) ∧ hist (ofChars ['x']) = some l ∧
    ∃ file, h.files (ofChars ['x']) = some file ∧ file.length = 65536 * 1024 ∧ ImageInv file.bytes := by
  have hrun : (run (ghost (hostStep id) (historyAfter id)) (emptyHost CStr,fun _ => none) [.format (pathArg ['x']) 0,
      .mount (pathArg ['x']) 1,.api 0 (.inl (.create (pathArg ['/','a']) .regular)),.api 1 (.inr (pathArg ['/']))]).map
      (fun q => (q.2 (ofChars ['x'])).isSome) = some true := by
    decide +kernel
  obtain ⟨⟨h,hist⟩,hs,hl⟩ := Option.map_eq_some_iff.mp hrun
  obtain ⟨l,hl⟩ := Option.isSome_iff_exists.mp hl
  have hreach : Sessions id (Respects Safe) (emptyHost CStr,fun _ => none) (h,hist) := by
    refine reach_of_guarded_run (fun e he q => ?_) hs
    simp only [List.mem_cons, List.not_mem_nil, or_false] at he
    rcases he with rfl | rfl | rfl | rfl
    · trivial
    · trivial
    · exact fun _ _ => trivial
    · trivial
  exact ⟨h,hist,l,hs,hl,session_images hreach hl⟩

/-- In a process that starts without objects and has one object of each file at a time, each file it has formatted
answers to the calls on it as a file system of its own does, and holds what that comes to. -/
theorem session_projects {G : F19FS → Call → Prop} (hG : ∀ s, G s .remount) (h0 : ∀ a, h₀.mounted a = none)
    (hr : Sessions locate (fun h e => Exclusive locate h e ∧ Respects G h e) (h₀,fun _ => none) (h,hist))
    (hl : hist f = some l) : ∃ file s, h.files f = some file ∧ file.length = 65536 * 1024 ∧
      Replays reply fsFormat l s ∧ Reach step G fsFormat s ∧ s.image = file.bytes ∧
      ∀ a o, h.mounted a = some o → o.whole = some f → o.fdTable = s.fdTable := by
  have hstart : Separate G (h₀,fun _ : F => none) := by
    refine ⟨fun a b o o' f ha => ?_,fun _ _ hn => by cases hn⟩
    have ha : h₀.mounted a = some o := ha
    rw [h0] at ha
    cases ha
  refine (hr.invariant (P := Separate G) hstart (fun hS hg hs => ?_)).replay f l hl
  obtain ⟨hs,he⟩ := of_ghost hs
  have hS' := (hostStep_cases hs).separate hG hg.1 hg.2 hS
  rwa [← he] at hS'

/-- A file is formatted, gets a name, and is mounted again through another object. -/
theorem session_projects_again : ∃ (h : Host CStr) (hist : History CStr) (l : List ((Call ⊕ Option PathArg) × Reply)),
    run (ghost (hostStep id) (historyAfter id)) (emptyHost CStr,fun _ => none) [.format (pathArg ['x']) 0,
      .api 0 (.inl (.create (pathArg ['/','a']) .regular)),.unmount (some 0),.mount (pathArg ['x']) 1] = some (h,hist) ∧
    hist (ofChars ['x']) = some l ∧ ∃ file s, h.files (ofChars ['x']) = some file ∧ file.length = 65536 * 1024 ∧
      Replays reply fsFormat l s ∧ Reach step Safe fsFormat s ∧ s.image = file.bytes ∧
      ∀ a o, h.mounted a = some o → o.whole = some (ofChars ['x']) → o.fdTable = s.fdTable := by
  have hrun : (run (ghost (hostStep id) (historyAfter id)) (emptyHost CStr,fun _ => none) [.format (pathArg ['x']) 0,
      .api 0 (.inl (.create (pathArg ['/','a']) .regular)),.unmount (some 0),.mount (pathArg ['x']) 1]).map
      (fun q => (q.2 (ofChars ['x'])).isSome) = some true := by
    decide +kernel
  obtain ⟨⟨h,hist⟩,hs,hl⟩ := Option.map_eq_some_iff.mp hrun
  obtain ⟨l,hl⟩ := Option.isSome_iff_exists.mp hl
  refine ⟨h,hist,l,hs,hl,?_⟩
  obtain ⟨q₁,h₁,hs₁⟩ := run_cons.mp hs
  obtain ⟨q₂,h₂,hs₂⟩ := run_cons.mp hs₁
  obtain ⟨q₃,h₃,hs₃⟩ := run_cons.mp hs₂
  obtain ⟨q₄,h₄,hs₄⟩ := run_cons.mp hs₃
  cases hs₄
  have hempty : ∀ a, (emptyHost CStr).mounted a = none := fun _ => rfl
  -- only the object at 0 is there, and it is gone before the file is mounted again
  have hm₁ : ∀ a, a ≠ 0 → q₁.1.mounted a = none := by
    intro a ha
    cases h₁
    exact update_of_ne ha _ _
  have hm₂ : ∀ a, a ≠ 0 → q₂.1.mounted a = none := by
    intro a ha
    obtain ⟨hs,_⟩ := of_ghost h₂
    obtain ⟨⟨r,h'⟩,hc,he⟩ := Option.map_eq_some_iff.mp hs
    obtain ⟨⟨f,s⟩,_,hc⟩ := Option.bind_eq_some_iff.mp hc
    obtain ⟨r,_,hc⟩ := Option.map_eq_some_iff.mp hc
    cases hc
    rw [← he]
    exact (update_of_ne ha _ _).trans (hm₁ a ha)
  have hm₃ : ∀ a, q₃.1.mounted a = none := by
    intro a
    obtain ⟨hs,_⟩ := of_ghost h₃
    obtain ⟨⟨r,h'⟩,hc,he⟩ := Option.map_eq_some_iff.mp hs
    obtain ⟨r,hc,hr⟩ := Option.map_eq_some_iff.mp hc
    obtain ⟨o,_,hc⟩ := Option.map_eq_some_iff.mp hc
    cases hc
    cases hr
    rw [← he]
    show update q₂.1.mounted 0 none a = none
    by_cases ha : a = 0
    · rw [ha, update_self]
    · rw [update_of_ne ha, hm₂ a ha]
  have hreach : Sessions id (fun h e => Exclusive id h e ∧ Respects Safe h e) (emptyHost CStr,fun _ => none) (h,hist) := by
    have hx₁ : Exclusive id (emptyHost CStr) (.format (pathArg ['x']) 0) := fun p _ a o ho => by cases ho
    have hx₄ : Exclusive id q₃.1 (.mount (pathArg ['x']) 1) := by
      intro p _ a o ho
      rw [Option.mem_def, hm₃] at ho
      cases ho
    exact (((Reach.refl.tail ⟨hx₁,trivial⟩ h₁).tail ⟨trivial,fun _ _ => trivial⟩ h₂).tail ⟨trivial,trivial⟩ h₃).tail
      ⟨hx₄,trivial⟩ h₄
  exact session_projects (fun _ => trivial) hempty hreach hl

end Runs

end LiteOSFS
