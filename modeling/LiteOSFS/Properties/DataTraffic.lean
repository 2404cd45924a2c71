import LiteOSFS.Properties.SameNames

/-! # Names and data

Opening, closing, reading, writing, seeking and mounting again change no name. However they
are put between the calls that look at directories and change them, these return the same.
-/
namespace LiteOSFS
open Memory CString Ownership EntryGraph Transition

/-- The calls on descriptors, and mounting again. -/
def Call.isData : Call → Bool
  | .openFile _ | .close _ | .read _ _ _ | .write _ _ _ | .seek _ _ _ | .remount => true
  | _ => false

/-- A call of either kind. -/
def trafficCall (s : F19FS) : NameCall ⊕ Call → Option (Answer × F19FS)
  | .inl c => nameCall s c
  | .inr c => (call s c).map answered

/-- The name calls are ready, and the data calls are safe and have a result. -/
def TrafficReady (s : F19FS) : NameCall ⊕ Call → Prop
  | .inl c => NameReady s c
  | .inr c => c.isData = true ∧ Safe s c ∧ (call s c).isSome = true

section Data
variable {s s' t : F19FS} {c : Call} {ret : ℤ}

theorem Inode.live_attributes {x y : Inode} (h : x.attributes = y.attributes) (j : ℕ) : x.live j = y.live j := by
  have ha := congrArg Inode.vacantFile h
  have hv : x.vacantFile = y.vacantFile := ha
  rw [Inode.live, Inode.live, hv]

theorem fsWrite_sameNames {fd : ℤ} {src : Option Mem} {nbyte : UInt64} (hi : ImageInv s.image)
    (hsafe : WriteSafe s fd nbyte) (h : fsWrite s fd src nbyte = some (ret,s')) : SameNames s'.image s.image := by
  refine ⟨fsWrite_names hi hsafe h,fun i hi' j _ => ?_⟩
  rcases fsWrite_account hi hsafe h with rfl | ⟨_,_,m',x',size,hext,_,him⟩
  · rfl
  · rw [him, inodeAt_putInode]
    split_ifs with hif
    · rw [← hif]
      show x'.live j = _
      exact Inode.live_attributes hext.attrs j
    · rw [hext.inodes i hi']

/-- No data call changes a name. -/
theorem data_sameNames (hi : ImageInv s.image) (hd : c.isData = true) (hsafe : Safe s c)
    (h : call s c = some (ret,s')) : SameNames s'.image s.image := by
  have hsame : s'.image = s.image → SameNames s'.image s.image := by
    intro he
    rw [he]
    exact ⟨rfl,fun _ _ _ _ => rfl⟩
  cases c with
  | openFile path => exact hsame (fsOpen_image h)
  | close fd =>
    have hc : fsClose s fd = (ret,s') := Option.some.inj h
    apply hsame
    rw [← fsClose_image s fd, hc]
  | read fd dstNull nbyte =>
    obtain ⟨⟨ret',bytes,s''⟩,hr,he⟩ := Option.map_eq_some_iff.mp h
    cases he
    exact hsame (fsRead_image hr)
  | write fd src nbyte => exact fsWrite_sameNames hi hsafe h
  | seek fd offset whence => exact hsame (fsSeek_image h)
  | remount => exact hsame (by cases h; rfl)
  | create | remove | move | link => cases hd

theorem tidy_of_data (hd : c.isData = true) (hsafe : Safe s c) : Tidy s c := by
  refine ⟨hsafe,?_⟩
  cases c with
  | create => cases hd
  | _ => trivial

/-- A data call has a result, and the image after it is like the one before it. -/
theorem data_quiet (h : Alike s.image t.image) (hready : TrafficReady s (.inr c)) :
    ∃ r, trafficCall s (.inr c) = some r ∧ Alike r.2.image t.image := by
  obtain ⟨hd,hsafe,hsome⟩ := hready
  obtain ⟨⟨ret,s'⟩,hr⟩ := Option.isSome_iff_exists.mp hsome
  refine ⟨answered (ret,s'),by rw [trafficCall, hr, Option.map_some],?_⟩
  exact ⟨(data_sameNames h.tidy.inv hd hsafe hr).trans h.toSameNames,
    step_tidy h.tidy (tidy_of_data hd hsafe) (step_of_call hr),h.tidy'⟩

/-- Two runs with the same name calls, from images with the same names, get the same answers to them, whatever data
calls there are in between. -/
theorem names_independent {as bs : List (NameCall ⊕ Call)} (h : Alike s.image t.image)
    (hs : Allowed trafficCall TrafficReady s as) (ht : Allowed trafficCall TrafficReady t bs)
    (he : as.filter Sum.isLeft = bs.filter Sum.isLeft) :
    seen trafficCall Sum.isLeft s as = seen trafficCall Sum.isLeft t bs := by
  refine seen_eq (R := fun s t : F19FS => Alike s.image t.image) (fun _ _ h => h.symm) (fun s t a ha h hs ht => ?_)
    (fun s t a ha h hs => ?_) h hs ht he
  · cases a with
    | inl c => exact nameCall_alike s t c h hs ht
    | inr c => cases ha
  · cases a with
    | inl c => cases ha
    | inr c => exact data_quiet h hs

end Data

theorem TidyImage.alike {m : Mem} (h : TidyImage m) : Alike m m := ⟨⟨rfl,fun _ _ _ _ => rfl⟩,h,h⟩

/-- Calls that are seen to be ready. -/
def trafficCheck (s : F19FS) : NameCall ⊕ Call → Bool
  | .inl (.create (some path) _) => createTidyCheck s.image path.chars && decide (firstFree s.image ≠ sizeMax)
  | .inl (.getDir _) => true
  | .inl _ => false
  | .inr c => c.isData && plain s c && (call s c).isSome

theorem ready_of_trafficCheck (s : F19FS) (a : NameCall ⊕ Call) (h : trafficCheck s a = true) : TrafficReady s a := by
  rcases a with c | c
  · cases c with
    | create path type =>
      cases path with
      | none => cases h
      | some p =>
        obtain ⟨htidy,hfree⟩ := Bool.and_eq_true_iff.mp h
        rintro q hq
        cases hq
        exact ⟨createTidy_of_check htidy,fun _ _ _ _ _ => of_decide_eq_true hfree⟩
    | getDir path => trivial
    | link | remove => cases h
  · obtain ⟨h,hsome⟩ := Bool.and_eq_true_iff.mp h
    obtain ⟨hd,hplain⟩ := Bool.and_eq_true_iff.mp h
    exact ⟨hd,safe_of_plain s c hplain,hsome⟩

/-- A file is opened and written to, and the image mounted again, before the root is listed. -/
theorem names_independent_write : seen trafficCall Sum.isLeft fsFormat [.inl (.create (pathArg ['/','a']) .regular),
      .inr (.openFile (pathArg ['/','a'])),.inr (.write 0 (some zeros) 2),.inr .remount,.inl (.getDir (pathArg ['/']))] =
    seen trafficCall Sum.isLeft fsFormat [.inl (.create (pathArg ['/','a']) .regular),
      .inl (.getDir (pathArg ['/']))] := by
  refine names_independent tidy_fsFormat.alike (allowed_of_check ready_of_trafficCheck ?_)
    (allowed_of_check ready_of_trafficCheck ?_) rfl
  · decide +kernel
  · decide +kernel

end LiteOSFS
