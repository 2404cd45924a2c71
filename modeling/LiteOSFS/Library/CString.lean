import LiteOSFS.Library.Memory
import Mathlib.Data.List.Induction

/-! # C strings

A C string is the list of its bytes before the terminator. The comparison,
copying and splitting functions of `string.h` and `libgen.h` are given as POSIX
describes them; a string stored in memory is read up to its first zero byte.
-/
namespace LiteOSFS.CString
open Memory

abbrev CStr := List UInt8

/-- The character `/`. -/
def slash : UInt8 := 47

/-- A string written as its characters. -/
def ofChars (s : List Char) : CStr := s.map (fun c => UInt8.ofNat c.toNat)

/-- The bytes of a string followed by zeros. -/
def bytes (s : CStr) : Mem := fun k => s.getD k 0

/-- The string at `off`, or the first `fuel` bytes when there is no terminator among them. -/
def read (b : Mem) : (fuel off : ℕ) → CStr
  | 0, _ => []
  | fuel + 1, off => if b off = 0 then [] else b off :: read b fuel (off + 1)

def strcpy (b : Mem) (off : ℕ) (s : CStr) : Mem := copyIn b off (s.length + 1) (bytes s)

/-- `strncpy`: exactly `n` bytes are stored, so no terminator when `n ≤ strlen(s)`. -/
def strncpy (b : Mem) (off : ℕ) (s : CStr) (n : ℕ) : Mem := copyIn b off n (bytes s)

/-- `strncmp(a, b, n) == 0`. -/
def strncmpEq (a b : CStr) (n : ℕ) : Bool := (a ++ [0]).take n == (b ++ [0]).take n

/-- The tokens that repeated calls of `strtok` return. -/
def strtok (delim : UInt8) (s : CStr) : List CStr := (s.splitOn delim).filter (· ≠ [])

def rtrim (s : CStr) : CStr := (s.reverse.dropWhile (· == slash)).reverse

def basename (s : CStr) : CStr :=
  let t := rtrim s
  if t = [] then (if s = [] then [46] else [slash])
  else (t.reverse.takeWhile (· != slash)).reverse

def dirname (s : CStr) : CStr :=
  let t := rtrim s
  let u := (t.reverse.dropWhile (· != slash)).reverse
  let v := rtrim u
  if v ≠ [] then v else if u ≠ [] ∨ (t = [] ∧ s ≠ []) then [slash] else [46]

theorem strncmpEq_max {a b : CStr} (ha : 0 ∉ a) (hb : 0 ∉ b) :
    strncmpEq a b (max a.length b.length) = true ↔ a = b := by
  rw [strncmpEq, beq_iff_eq]
  constructor
  · intro h
    rcases Nat.lt_trichotomy a.length b.length with hlt | heq | hlt
    · rw [max_eq_right hlt.le, List.take_of_length_le (by simp; omega), List.take_left'] at h
      · exact absurd (h ▸ List.mem_append_right a (List.mem_singleton_self 0)) hb
      · rfl
    · rwa [← heq, max_self, List.take_left' rfl, heq, List.take_left' rfl] at h
    · rw [max_eq_left hlt.le, List.take_left' rfl, List.take_of_length_le (by simp; omega)] at h
      exact absurd (h.symm ▸ List.mem_append_right b (List.mem_singleton_self 0)) ha
  · rintro rfl
    rfl

/-- Comparing as many bytes as `b` has is a test for `b` being a prefix. -/
theorem strncmpEq_length {a b : CStr} (hb : 0 ∉ b) : strncmpEq a b b.length = true ↔ b <+: a := by
  rw [strncmpEq, beq_iff_eq, List.take_left' rfl]
  constructor
  · intro h
    by_cases hl : b.length ≤ a.length
    · rw [List.take_append_of_le_length hl] at h
      exact h ▸ List.take_prefix _ _
    · rw [List.take_of_length_le (by simp; omega)] at h
      exact absurd (h ▸ List.mem_append_right a (List.mem_singleton_self 0)) hb
  · intro h
    rw [List.take_append_of_le_length h.length_le]
    exact (List.prefix_iff_eq_take.mp h).symm

theorem zero_not_mem_read (b : Mem) (fuel off : ℕ) : 0 ∉ read b fuel off := by
  induction fuel generalizing off with
  | zero => simp [read]
  | succ fuel ih =>
    rw [read]
    split_ifs with h
    · simp
    · exact List.not_mem_cons_of_ne_of_not_mem (fun he => h he.symm) (ih _)

/-- Reading a string that was stored with its terminator. -/
theorem read_of_bytes {b : Mem} {fuel off : ℕ} {s : CStr} (hs : 0 ∉ s) (hf : s.length < fuel)
    (h : ∀ k ≤ s.length, b (off + k) = bytes s k) : read b fuel off = s := by
  induction s generalizing fuel off with
  | nil =>
    obtain ⟨fuel,rfl⟩ := Nat.exists_eq_succ_of_ne_zero (Nat.ne_of_gt hf)
    have h0 : b off = 0 := h 0 le_rfl
    rw [read, if_pos h0]
  | cons c s ih =>
    obtain ⟨fuel,rfl⟩ := Nat.exists_eq_succ_of_ne_zero (Nat.ne_of_gt (Nat.zero_lt_of_lt hf))
    have h0 : b off = c := h 0 (Nat.zero_le _)
    obtain ⟨hc,hs⟩ := List.ne_and_not_mem_of_not_mem_cons hs
    rw [read, h0, if_neg (Ne.symm hc), ih hs (by simpa using hf)]
    intro k hk
    have hk' := h (k + 1) (by simpa using hk)
    rwa [show off + (k + 1) = off + 1 + k by omega] at hk'

theorem read_strncpy (b : Mem) {fuel off n : ℕ} {s : CStr} (hs : 0 ∉ s) (hf : s.length < fuel)
    (hn : s.length < n) : read (strncpy b off s n) fuel off = s := by
  apply read_of_bytes hs hf
  intro k hk
  rw [strncpy, copyIn_inside (by omega) (by omega), Nat.add_sub_cancel_left]

section Tokens
variable {d : UInt8}

theorem strtok_append (u v : CStr) : strtok d (u ++ d :: v) = strtok d u ++ strtok d v := by
  rw [strtok, List.splitOn, List.splitOnP_append_cons _ _ (by simp), List.filter_append]
  rfl

theorem strtok_nil : strtok d [] = [] := by simp [strtok, List.splitOn]

theorem strtok_cons (v : CStr) : strtok d (d :: v) = strtok d v := by
  simpa [strtok_nil] using strtok_append (d := d) [] v

theorem strtok_single {v : CStr} (hv : v ≠ []) (hd : d ∉ v) : strtok d v = [v] := by
  rw [strtok, List.splitOn, List.splitOnP_eq_singleton]
  · simp [hv]
  · intro x hx
    simpa using fun (he : x = d) => hd (he ▸ hx)

/-- A string is built from strings without the delimiter by putting it between two. -/
theorem delimited_induction {P : CStr → Prop} (single : ∀ s, d ∉ s → P s)
    (split : ∀ u v, P u → P v → P (u ++ d :: v)) (s : CStr) : P s := by
  induction hn : s.length using Nat.strong_induction_on generalizing s with
  | _ n ih =>
    subst hn
    by_cases hd : d ∈ s
    · obtain ⟨u,v,rfl⟩ := List.append_of_mem hd
      exact split u v (ih u.length (by simp) u rfl) (ih v.length (by simp; omega) v rfl)
    · exact single s hd

/-- A token is not empty, has no delimiter, and consists of bytes of the string. -/
theorem mem_strtok {s t : CStr} (h : t ∈ strtok d s) : t ≠ [] ∧ d ∉ t ∧ t ⊆ s := by
  induction s using delimited_induction (d := d) with
  | single s hd =>
    by_cases h0 : s = []
    · rw [h0, strtok_nil] at h
      cases h
    · rw [strtok_single h0 hd, List.mem_singleton] at h
      subst h
      exact ⟨h0,hd,List.Subset.refl _⟩
  | split u v hu hv =>
    rw [strtok_append, List.mem_append] at h
    rcases h with h | h
    · obtain ⟨h0,h1,hs⟩ := hu h
      exact ⟨h0,h1,fun c hc => List.mem_append_left _ (hs hc)⟩
    · obtain ⟨h0,h1,hs⟩ := hv h
      exact ⟨h0,h1,fun c hc => List.mem_append_right _ (List.mem_cons_of_mem d (hs hc))⟩

theorem length_of_mem_strtok {s t : CStr} (h : t ∈ strtok d s) : t.length ≤ s.length := by
  induction s using delimited_induction (d := d) with
  | single s hd =>
    by_cases h0 : s = []
    · rw [h0, strtok_nil] at h
      cases h
    · rw [strtok_single h0 hd, List.mem_singleton] at h
      rw [h]
  | split u v hu hv =>
    rw [List.length_append, List.length_cons]
    rw [strtok_append, List.mem_append] at h
    rcases h with h | h
    · have hl := hu h
      omega
    · have hl := hv h
      omega

/-- There is at most one token more than delimiters. -/
theorem strtok_length_le (s : CStr) : (strtok d s).length ≤ s.count d + 1 := by
  induction s using delimited_induction (d := d) with
  | single s hd =>
    by_cases h0 : s = []
    · rw [h0, strtok_nil]
      exact Nat.zero_le _
    · rw [strtok_single h0 hd, List.length_singleton]
      exact Nat.le_add_left 1 _
  | split u v hu hv =>
    rw [strtok_append, List.length_append, List.count_append, List.count_cons_self]
    omega

theorem strtok_append_self (u : CStr) : strtok d (u ++ [d]) = strtok d u := by
  rw [strtok_append, strtok_nil, List.append_nil]

end Tokens

theorem rtrim_append_slash (u : CStr) : rtrim (u ++ [slash]) = rtrim u := by
  simp [rtrim]

theorem rtrim_of_last {u : CStr} {c : UInt8} (hc : c ≠ slash) : rtrim (u ++ [c]) = u ++ [c] := by
  simp [rtrim, hc]

theorem strtok_rtrim (u : CStr) : strtok slash (rtrim u) = strtok slash u := by
  induction u using List.reverseRecOn with
  | nil => rfl
  | append_singleton u c ih =>
    by_cases hc : c = slash
    · rw [hc, rtrim_append_slash, strtok_append_self, ih]
    · rw [rtrim_of_last hc]

end LiteOSFS.CString
