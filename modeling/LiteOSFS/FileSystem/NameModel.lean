import LiteOSFS.FileSystem.EntryMap
import LiteOSFS.Library.EntryCount

/-! # The name space without blocks and bytes

Of an image there remain the entries of the directories and, for each inode, its mark and
its record's type, number and link count. The calls change these by six kinds of step.
-/
namespace LiteOSFS
open Memory CString EntryGraph

structure Record where
  used : Bool
  kind : UInt8
  number : UInt64
  links : UInt64

/-- An inode that is not in use. -/
def Record.blank : Record := ⟨false,0,0,0⟩

structure Names where
  entries : Entries ℕ ℕ CStr
  record : ℕ → Record

inductive Change where
  /-- An inode is marked, and that is all. -/
  | take (c : ℕ)
  | create (d k : ℕ) (name : CStr) (c : ℕ) (kind : UInt8)
  | link (d k : ℕ) (name : CStr) (i : ℕ)
  /-- A link count is lowered, and that is all. -/
  | lower (i : ℕ)
  /-- Inode `i` is given back and slot `k` is emptied. -/
  | unlink (d k i : ℕ)
  | drop (d k : ℕ)

namespace Names

def setRecord (n : Names) (i : ℕ) (r : Record) : Names := { n with record := Function.update n.record i r }
def setEntry (n : Names) (d k : ℕ) (r : Option (CStr × ℕ)) : Names := { n with entries := update n.entries d k r }

/-- The link count of a directory that gets a link to itself stays as it was. -/
def apply (n : Names) : Change → Names
  | .take c => n.setRecord c { n.record c with used := true }
  | .create d k name c kind => (n.setEntry d k (some (name,c))).setRecord c ⟨true,kind,UInt64.ofNat c,1⟩
  | .link d k name i => if i = d then n.setEntry d k (some (name,i))
      else (n.setEntry d k (some (name,i))).setRecord i { n.record i with links := (n.record i).links + 1 }
  | .lower i => n.setRecord i { n.record i with links := (n.record i).links - 1 }
  | .unlink d k i => (n.setEntry d k none).setRecord i Record.blank
  | .drop d k => n.setEntry d k none

def applyAll (n : Names) (l : List Change) : Names := l.foldl apply n

/-- Slot `k` of directory `d` can get the name. -/
structure Room (n : Names) (d k : ℕ) (name : CStr) : Prop where
  dirLt : d < 256
  slotLt : k < 31
  dirUsed : (n.record d).used = true
  directory : (n.record d).kind = typeDirectory
  fits : FitsSlot name
  vacant : n.entries d k = none
  absent : ∀ e, ¬ Edge n.entries d name e

/-- The first slot of a directory whose name begins with `name`. -/
def FirstPrefix (E : Entries ℕ ℕ CStr) (d : ℕ) (name : CStr) (k : ℕ) : Prop :=
  (∃ a i, E d k = some (a,i) ∧ name <+: a) ∧ ∀ j < k, ∀ a i, E d j = some (a,i) → ¬ name <+: a

/-- When the code makes a change. -/
inductive Enabled (n : Names) : Change → Prop where
  | take {c : ℕ} : c < 256 → (n.record c).used = false → Enabled n (.take c)
  | create {d k c : ℕ} {name : CStr} {kind : UInt8} : n.Room d k name → c < 256 → (n.record c).used = false →
      kind = typeDirectory ∨ kind = typeRegular → Enabled n (.create d k name c kind)
  | link {d k p i : ℕ} {name a : CStr} : n.Room d k name → Edge n.entries p a i → (n.record i).links < 255 →
      Enabled n (.link d k name i)
  | lower {d i : ℕ} {name : CStr} : Edge n.entries d name i → (n.record i).kind = typeRegular → 1 < (n.record i).links →
      Enabled n (.lower i)
  | unlink {d k i : ℕ} {name : CStr} : Edge n.entries d name i → FirstPrefix n.entries d name k → i ≠ 0 →
      ((n.record i).kind = typeRegular → ¬ 1 < (n.record i).links) → (∀ a e, ¬ Edge n.entries i a e) →
      Enabled n (.unlink d k i)
  | drop {d k i : ℕ} {name : CStr} : Edge n.entries d name i → FirstPrefix n.entries d name k → Enabled n (.drop d k)

/-- Entries are in directories and refer to inodes. -/
structure Placed (n : Names) : Prop where
  source : ∀ d k r, n.entries d k = some r → d < 256 ∧ k < 31 ∧ (n.record d).used = true ∧
    (n.record d).kind = typeDirectory
  target : ∀ d k a i, n.entries d k = some (a,i) → i < 256

section Apply
variable {n : Names} {d k c i : ℕ} {r : Option (CStr × ℕ)} {x : Record}

@[simp] theorem setRecord_entries : (n.setRecord i x).entries = n.entries := rfl
@[simp] theorem setEntry_entries : (n.setEntry d k r).entries = update n.entries d k r := rfl
@[simp] theorem setEntry_record : (n.setEntry d k r).record = n.record := rfl
@[simp] theorem setRecord_self : (n.setRecord i x).record i = x := Function.update_self _ _ _

theorem setRecord_of_ne (h : c ≠ i) : (n.setRecord i x).record c = n.record c := Function.update_of_ne h _ _

theorem setRecord_eq (c : ℕ) : (n.setRecord i x).record c = if c = i then x else n.record c := Function.update_apply _ _ _ _

@[simp] theorem applyAll_nil (n : Names) : n.applyAll [] = n := rfl
@[simp] theorem applyAll_single (n : Names) (ch : Change) : n.applyAll [ch] = n.apply ch := rfl

end Apply

/-- Each change of the list meets the condition in the state before it. -/
def Along (P : Names → Change → Prop) : Names → List Change → Prop
  | _, [] => True
  | n, ch :: l => P n ch ∧ Along P (n.apply ch) l

theorem Along.invariant {P : Names → Change → Prop} {I : Names → Prop} (hstep : ∀ n ch, I n → P n ch → I (n.apply ch))
    {n : Names} {l : List Change} (h : Along P n l) (h0 : I n) : I (n.applyAll l) := by
  induction l generalizing n with
  | nil => exact h0
  | cons ch l ih => exact ih h.2 (hstep n ch h0 h.1)

theorem Along.and {P Q : Names → Change → Prop} {n : Names} {l : List Change} (h : Along P n l) (h' : Along Q n l) :
    Along (fun n ch => P n ch ∧ Q n ch) n l := by
  induction l generalizing n with
  | nil => trivial
  | cons ch l ih => exact ⟨⟨h.1,h'.1⟩,ih h.2 h'.2⟩

section Placed
variable {n : Names} {d k c i : ℕ} {name : CStr}

theorem Placed.drop (h : n.Placed) : (n.setEntry d k none).Placed := by
  have hold : ∀ e j r, update n.entries d k none e j = some r → n.entries e j = some r := by
    intro e j r hr
    by_cases hc : e = d ∧ j = k
    · rw [hc.1, hc.2, update_self] at hr
      cases hr
    · rwa [update_of_ne hc] at hr
  exact ⟨fun e j r hr => h.source e j r (hold e j r hr),fun e j a i hr => h.target e j a i (hold e j _ hr)⟩

theorem Placed.fill (h : n.Placed) (hroom : n.Room d k name) (hi : i < 256) : (n.setEntry d k (some (name,i))).Placed := by
  refine ⟨fun e j r hr => ?_,fun e j a i' hr => ?_⟩
  · by_cases hc : e = d ∧ j = k
    · rw [hc.1, hc.2]
      exact ⟨hroom.dirLt,hroom.slotLt,hroom.dirUsed,hroom.directory⟩
    · rw [setEntry_entries, update_of_ne hc] at hr
      exact h.source e j r hr
  · by_cases hc : e = d ∧ j = k
    · rw [setEntry_entries, hc.1, hc.2, update_self] at hr
      cases hr
      exact hi
    · rw [setEntry_entries, update_of_ne hc] at hr
      exact h.target e j a i' hr

/-- Directories with entries stay marked and of their type when another record, or only other fields, change. -/
theorem Placed.setRecord {x : Record} (h : n.Placed) (hx : (∃ a e, Edge n.entries i a e) →
    x.used = true ∧ x.kind = typeDirectory) : (n.setRecord i x).Placed := by
  refine ⟨fun e j r hr => ?_,h.target⟩
  obtain ⟨he,hj,hu,hk⟩ := h.source e j r hr
  refine ⟨he,hj,?_⟩
  rw [setRecord_eq]
  split_ifs with hei
  · exact hx ⟨r.1,r.2,j,hei ▸ hr⟩
  · exact ⟨hu,hk⟩

theorem Placed.of_edge {a : CStr} {e : ℕ} (h : n.Placed) (he : Edge n.entries d a e) :
    (n.record d).used = true ∧ (n.record d).kind = typeDirectory ∧ e < 256 := by
  obtain ⟨j,he⟩ := he
  obtain ⟨_,_,hu,hk⟩ := h.source _ _ _ he
  exact ⟨hu,hk,h.target _ _ _ _ he⟩

/-- An inode that is not in use has no entries. -/
theorem Placed.no_edge_of_free (h : n.Placed) (hfree : (n.record c).used = false) : ¬ ∃ a e, Edge n.entries c a e := by
  rintro ⟨a,e,he⟩
  have hu := (h.of_edge he).1
  rw [hfree] at hu
  cases hu

theorem Placed.apply {ch : Change} (h : n.Placed) (he : n.Enabled ch) : (n.apply ch).Placed := by
  cases he with
  | take _ hfree => exact h.setRecord (fun hex => absurd hex (h.no_edge_of_free hfree))
  | @create d k c name kind hroom hc hfree _ =>
    refine (h.fill hroom hc).setRecord ?_
    rintro ⟨a,e,hedge⟩
    rcases (edge_update_some hroom.vacant).mp hedge with ⟨rfl,_⟩ | hold
    · have hu := hroom.dirUsed
      rw [hfree] at hu
      cases hu
    · exact absurd ⟨a,e,hold⟩ (h.no_edge_of_free hfree)
  | @link d k p i name a hroom hedge _ =>
    have hfill := h.fill hroom (h.of_edge hedge).2.2
    rw [Names.apply]
    split_ifs with hid
    · exact hfill
    · refine hfill.setRecord ?_
      rintro ⟨b,e,hb⟩
      rcases (edge_update_some hroom.vacant).mp hb with ⟨he,_⟩ | hold
      · exact absurd he hid
      · exact ⟨(h.of_edge hold).1,(h.of_edge hold).2.1⟩
  | lower _ _ _ => exact h.setRecord (fun ⟨a,e,hedge⟩ => ⟨(h.of_edge hedge).1,(h.of_edge hedge).2.1⟩)
  | @unlink d k i name _ _ _ _ hno =>
    refine (h.drop (d := d) (k := k)).setRecord ?_
    rintro ⟨a,e,j,hj⟩
    have hold : n.entries i j = some (a,e) := by
      by_cases hc : i = d ∧ j = k
      · rw [setEntry_entries, hc.1, hc.2, update_self] at hj
        cases hj
      · rwa [setEntry_entries, update_of_ne hc] at hj
    exact absurd ⟨j,hold⟩ (hno a e)
  | drop _ _ => exact h.drop

end Placed

end Names

end LiteOSFS
