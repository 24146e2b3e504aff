import Mathlib.Data.List.DropRight
import TimeTask.Lib.CString
import TimeTask.Types

/-! trimspace. A buffer is the list of its bytes, and an access outside of it
makes the result `none`. -/
namespace TimeTask
open Lib

/-- `strlen` of the string at the start of the buffer; `none` when it has no terminator. -/
def strlen (dat : List Byte) : Option Nat := dat.findIdx? (· == 0)

/-- The bytes cleared at the end of a line: carriage return, line feed and space. -/
def isTail (b : Byte) : Bool := b == 13 || b == 10 || b == 32

/-- The first loop of trimspace; the first argument is `i + 1`. -/
def trimTail : Nat → List Byte → Option (Nat × List Byte)
  | 0, dat => some (0, dat)
  | i + 1, dat =>
    match dat[i]? with
    | none => none
    | some b => if isTail b then trimTail i (dat.set i 0) else some (i + 1, dat)

/-- The loop without a bound: the number of spaces at the start of the buffer. -/
def skipSpaces : List Byte → Nat → Option Nat
  | [], _ => none
  | b :: dat, j => if b ≠ 32 then some j else skipSpaces dat (j + 1)

/-- `for(;j<=i;++k,++j)`; the first argument counts the passes. -/
def shiftLeft : Nat → Nat → Nat → List Byte → Option (List Byte)
  | 0, _, _, dat => some dat
  | n + 1, k, j, dat =>
    match dat[j]? with
    | none => none
    | some b => if k < dat.length then shiftLeft n (k + 1) (j + 1) (dat.set k b) else none

/-- `for(;k<=i;++k)`; the first argument counts the passes. -/
def zeroFrom : Nat → Nat → List Byte → Option (List Byte)
  | 0, _, dat => some dat
  | n + 1, k, dat => if k < dat.length then zeroFrom n (k + 1) (dat.set k 0) else none

/-- What follows the first loop; `n` is `i + 1`. -/
def trimHead (n : Nat) (dat : List Byte) : Option (List Byte) :=
  if n ≤ 1 ∨ dat[0]? ≠ some 32 then some dat
  else
    match skipSpaces dat 0 with
    | none => none
    | some j =>
      match shiftLeft (n - j) 0 j dat with
      | none => none
      | some dat => zeroFrom (n - (n - j)) (n - j) dat

def trimspace (dat : List Byte) (num : Int) : Option (List Byte) :=
  if num < 1 then some dat
  else
    match strlen dat with
    | none => none
    | some len => (trimTail (min len num.toNat) dat).bind fun (n, dat) => trimHead n dat

/-- What trimspace leaves of a string. -/
def trim (s : List Byte) : List Byte := (s.rdropWhile isTail).dropWhile (· == 32)

theorem strlen_eq (s rest : List Byte) (hs : NulFree s) : strlen (s ++ 0 :: rest) = some s.length := by
  induction s with
  | nil => rfl
  | cons b s ih =>
    have hb : b ≠ 0 := hs b (by simp)
    have hi := ih fun x hx => hs x (List.mem_cons_of_mem b hx)
    simp only [strlen] at hi ⊢
    simp [List.findIdx?_cons, hb, hi]

theorem trimTail_spec (s rest : List Byte) : trimTail s.length (s ++ rest) =
    some ((s.rdropWhile isTail).length,
      s.rdropWhile isTail ++ List.replicate (s.length - (s.rdropWhile isTail).length) 0 ++ rest) := by
  induction s using List.reverseRecOn generalizing rest with
  | nil => simp [trimTail]
  | append_singleton s b ih =>
    have hget : (s ++ [b] ++ rest)[s.length]? = some b := by simp
    have hset : (s ++ [b] ++ rest).set s.length 0 = s ++ 0 :: rest := by simp
    have hlen : (s.rdropWhile isTail).length ≤ s.length := (List.rdropWhile_prefix isTail s).length_le
    simp only [List.length_append, List.length_singleton, trimTail, hget]
    by_cases hb : isTail b = true
    · rw [if_pos hb, hset, ih, List.rdropWhile_concat_pos isTail s b hb]
      have hn : s.length + 1 - (s.rdropWhile isTail).length =
          s.length - (s.rdropWhile isTail).length + 1 := by omega
      rw [hn, List.replicate_succ']
      simp
    · rw [if_neg hb, List.rdropWhile_concat_neg isTail s b hb]
      simp

theorem skipSpaces_spec (j k : Nat) {b : Byte} (rest : List Byte) (hb : b ≠ 32) :
    skipSpaces (List.replicate j 32 ++ b :: rest) k = some (k + j) := by
  induction j generalizing k with
  | zero => simp [skipSpaces, hb]
  | succ j ih =>
    have hi := ih (k + 1)
    simp only [List.replicate_succ, List.cons_append, skipSpaces]
    simp only [ne_eq, not_true_eq_false, if_false, hi]
    congr 1
    omega

/-- The overlapping copy moves `u` to the front of the gap `x`; the bytes behind it are stale. -/
theorem shiftLeft_spec (u : List Byte) : ∀ (a x rest : List Byte), x ≠ [] →
    ∃ x', x'.length = x.length ∧
      shiftLeft u.length a.length (a.length + x.length) (a ++ x ++ u ++ rest) =
        some (a ++ u ++ x' ++ rest) := by
  induction u with
  | nil => exact fun a x rest _ => ⟨x, rfl, by simp [shiftLeft]⟩
  | cons b u ih =>
    intro a x rest hx
    obtain ⟨y, x, rfl⟩ := List.exists_cons_of_ne_nil hx
    obtain ⟨x', hlen, hrun⟩ := ih (a ++ [b]) (x ++ [b]) rest (by simp)
    refine ⟨x', by simpa using hlen, ?_⟩
    have hget : (a ++ y :: x ++ b :: u ++ rest)[a.length + (y :: x).length]? = some b := by
      have he : a ++ y :: x ++ b :: u ++ rest = (a ++ y :: x) ++ (b :: (u ++ rest)) := by simp
      rw [he, List.getElem?_append_right (by simp)]
      simp
    have hset : (a ++ y :: x ++ b :: u ++ rest).set a.length b = a ++ [b] ++ (x ++ [b]) ++ u ++ rest := by
      simp
    have hlt : a.length < (a ++ y :: x ++ b :: u ++ rest).length := by simp
    simp only [List.length_cons, shiftLeft] at hget ⊢
    rw [hget]
    simp only [hlt, if_true, hset]
    have hpos : (a ++ [b]).length + (x ++ [b]).length = a.length + (x.length + 1) + 1 := by
      simp
      omega
    rw [hpos, List.length_append, List.length_singleton] at hrun
    rw [hrun]
    simp

theorem zeroFrom_spec (x : List Byte) : ∀ (a rest : List Byte),
    zeroFrom x.length a.length (a ++ x ++ rest) = some (a ++ List.replicate x.length 0 ++ rest) := by
  induction x with
  | nil => simp [zeroFrom]
  | cons b x ih =>
    intro a rest
    have hi := ih (a ++ [0]) rest
    have hlt : a.length < (a ++ b :: x ++ rest).length := by simp
    have hset : (a ++ b :: x ++ rest).set a.length 0 = a ++ [0] ++ x ++ rest := by simp
    simp only [List.length_cons, zeroFrom, hlt, if_true, hset]
    rw [List.length_append, List.length_singleton] at hi
    rw [hi]
    simp [List.replicate_succ]

theorem rdropWhile_getLast {s : List Byte} (h : s.rdropWhile isTail ≠ []) :
    isTail ((s.rdropWhile isTail).getLast h) = false := by
  simpa using List.rdropWhile_last_not isTail s h

theorem spaces_split {t : List Byte} (ht : ∀ h : t ≠ [], isTail (t.getLast h) = false) (hne : t ≠ []) :
    ∃ j b u, t = List.replicate j 32 ++ b :: u ∧ b ≠ 32 ∧ t.dropWhile (· == 32) = b :: u := by
  induction t with
  | nil => exact absurd rfl hne
  | cons c t ih =>
    by_cases hc : c = 32
    · subst hc
      have htne : t ≠ [] := by
        intro hn
        subst hn
        have hlast := ht (by simp)
        simp [isTail] at hlast
      obtain ⟨j, b, u, he, hb, hd⟩ := ih (fun h => by
        have hlast := ht (by simp)
        rwa [List.getLast_cons h] at hlast) htne
      refine ⟨j + 1, b, u, ?_, hb, ?_⟩
      · rw [he, List.replicate_succ, List.cons_append]
      · simpa using hd
    · exact ⟨0, c, t, by simp, hc, by simp [hc]⟩

theorem trim_eq_tail {s : List Byte} (h : (s.rdropWhile isTail).length ≤ 1 ∨
    (s.rdropWhile isTail)[0]? ≠ some 32) : trim s = s.rdropWhile isTail := by
  rw [trim]
  cases ht : s.rdropWhile isTail with
  | nil => rfl
  | cons b t =>
    have hb : b ≠ 32 := by
      intro hb
      subst hb
      rw [ht] at h
      simp at h
      subst h
      have hlast := rdropWhile_getLast (s := s) (by simp [ht])
      simp [ht, isTail] at hlast
    simp [hb]

theorem trim_length_le (s : List Byte) : (trim s).length ≤ s.length :=
  le_trans (List.dropWhile_sublist _).length_le (List.rdropWhile_prefix isTail s).length_le

/-- Leading spaces are shifted out and the room they leave at the end is cleared. -/
theorem trimHead_spec (j : Nat) (hj : j ≠ 0) {b : Byte} (hb : b ≠ 32) (u rest : List Byte) :
    trimHead (List.replicate j 32 ++ b :: u).length (List.replicate j 32 ++ b :: u ++ rest) =
      some (b :: u ++ List.replicate j 0 ++ rest) := by
  obtain ⟨i, rfl⟩ := Nat.exists_eq_succ_of_ne_zero hj
  have hcond : ¬ ((List.replicate (i + 1) 32 ++ b :: u).length ≤ 1 ∨
      (List.replicate (i + 1) 32 ++ b :: u ++ rest)[0]? ≠ some 32) := by
    simp [List.replicate_succ]
  have hskip := skipSpaces_spec (i + 1) 0 (u ++ rest) hb
  obtain ⟨x', hx', hshift⟩ := shiftLeft_spec (b :: u) [] (List.replicate (i + 1) 32) rest (by simp)
  have hzero := zeroFrom_spec x' (b :: u) rest
  have hlen : (List.replicate (i + 1) (32 : Byte) ++ b :: u).length - (i + 1) = (b :: u).length := by
    simp
  have hlen' : (List.replicate (i + 1) (32 : Byte) ++ b :: u).length - (b :: u).length = x'.length := by
    simp [hx']
  simp only [List.length_nil, List.nil_append, List.length_replicate, Nat.zero_add] at hshift hskip hx'
  rw [trimHead, Nat.succ_eq_add_one, if_neg hcond]
  simp only [List.append_assoc, List.cons_append, hskip] at hshift hzero ⊢
  rw [hlen, hshift]
  simp only [hlen', hzero]
  rw [hx']

/-- trimspace on a terminated string: the trimmed string, and zeros up to the old end. -/
theorem trimspace_spec (s rest : List Byte) (hs : NulFree s) (num : Int) (hn : 1 ≤ num)
    (hl : (s.length : Int) ≤ num) : trimspace (s ++ 0 :: rest) num =
      some (trim s ++ List.replicate (s.length - (trim s).length) 0 ++ 0 :: rest) := by
  have hmin : min s.length num.toNat = s.length := by omega
  have hnum : ¬ num < 1 := by omega
  simp only [trimspace, hnum, if_false, strlen_eq s rest hs, hmin, trimTail_spec, Option.bind_some]
  have hlen : (s.rdropWhile isTail).length ≤ s.length := (List.rdropWhile_prefix isTail s).length_le
  have hlast := fun h => rdropWhile_getLast (s := s) h
  have htail := trim_eq_tail (s := s)
  have hdrop : trim s = (s.rdropWhile isTail).dropWhile (· == 32) := rfl
  generalize s.rdropWhile isTail = t at hlen hlast htail hdrop ⊢
  by_cases hcond : t.length ≤ 1 ∨ t[0]? ≠ some 32
  · rw [htail hcond, trimHead, if_pos]
    cases t with
    | nil => simp
    | cons b t => simpa using hcond
  · have hne : t ≠ [] := by
      intro hn
      subst hn
      simp at hcond
    obtain ⟨j, b, u, he, hb, hd⟩ := spaces_split hlast hne
    have hj : j ≠ 0 := by
      intro h0
      subst h0
      subst he
      simp [hb] at hcond
    rw [hdrop, hd]
    subst he
    rw [List.append_assoc, trimHead_spec j hj hb]
    have hsum : s.length - (b :: u).length =
        j + (s.length - (List.replicate j 32 ++ b :: u).length) := by
      simp at hlen ⊢
      omega
    rw [hsum, List.replicate_add]
    simp only [List.append_assoc]

/-- What is left ends in no byte that trimspace clears, and starts with no space. -/
theorem trim_ends (s : List Byte) :
    (∀ h : trim s ≠ [], isTail ((trim s).getLast h) = false) ∧ (trim s).head? ≠ some 32 := by
  constructor
  · intro h
    have hsuffix : trim s <:+ s.rdropWhile isTail := List.dropWhile_suffix _
    have hne : s.rdropWhile isTail ≠ [] := fun hn => h (by rw [trim, hn]; rfl)
    rw [hsuffix.getLast h]
    exact rdropWhile_getLast hne
  · intro h
    have hne : trim s ≠ [] := fun hn => by
      rw [hn] at h
      cases h
    have hhead : ((trim s).head hne == 32) = false := List.head_dropWhile_not (· == 32) hne
    rw [List.head?_eq_some_head hne, Option.some.injEq] at h
    rw [h] at hhead
    cases hhead

theorem trim_trim (s : List Byte) : trim (trim s) = trim s := by
  obtain ⟨hlast, hhead⟩ := trim_ends s
  have htail : (trim s).rdropWhile isTail = trim s := by
    rw [List.rdropWhile_eq_self_iff]
    exact fun h => by simp [hlast h]
  rw [trim_eq_tail, htail]
  rw [htail, ← List.head?_eq_getElem?]
  exact Or.inr hhead

theorem trim_parts (s : List Byte) :
    ∃ j u, s = List.replicate j 32 ++ trim s ++ u ∧ ∀ b ∈ u, isTail b = true := by
  have hspaces : (s.rdropWhile isTail).takeWhile (· == 32) =
      List.replicate ((s.rdropWhile isTail).takeWhile (· == 32)).length 32 := by
    refine List.eq_replicate_iff.mpr ⟨rfl, fun b hb => ?_⟩
    simpa using List.mem_takeWhile_imp hb
  have htail : ∀ b ∈ s.rtakeWhile isTail, isTail b = true := fun b hb => List.mem_rtakeWhile_imp hb
  refine ⟨((s.rdropWhile isTail).takeWhile (· == 32)).length, s.rtakeWhile isTail, ?_, htail⟩
  rw [← hspaces, trim, List.takeWhile_append_dropWhile, List.rdropWhile_append_rtakeWhile]

/-- trimspace takes away the bytes it clears at the end, then the spaces at the start, and puts
zeros in their room; what is left starts with no space and stays as it is. -/
theorem trimspace_trims {s : List Byte} (hs : NulFree s) (rest : List Byte) {num : Int} (hn : 1 ≤ num)
    (hl : (s.length : Int) ≤ num) :
    ∃ j u, s = List.replicate j 32 ++ trim s ++ u ∧ (∀ b ∈ u, isTail b = true) ∧
      (∀ h : trim s ≠ [], isTail ((trim s).getLast h) = false) ∧ (trim s).head? ≠ some 32 ∧
      trimspace (s ++ 0 :: rest) num = some (trim s ++ List.replicate (j + u.length) 0 ++ 0 :: rest) ∧
      trimspace (trim s ++ List.replicate (j + u.length) 0 ++ 0 :: rest) num =
        some (trim s ++ List.replicate (j + u.length) 0 ++ 0 :: rest) := by
  obtain ⟨j, u, hparts, hu⟩ := trim_parts s
  obtain ⟨hlast, hhead⟩ := trim_ends s
  have hlen : s.length = j + (trim s).length + u.length := by
    have h := congrArg List.length hparts
    rwa [List.length_append, List.length_append, List.length_replicate] at h
  have hnul : NulFree (trim s) := by
    intro b hb
    refine hs b ?_
    rw [hparts]
    simp [hb]
  have hfirst := trimspace_spec s rest hs num hn hl
  have hsecond : ∀ k, trimspace (trim s ++ List.replicate k 0 ++ 0 :: rest) num =
      some (trim s ++ List.replicate k 0 ++ 0 :: rest) := by
    intro k
    have hsplit : ∃ more, List.replicate k (0 : Byte) ++ 0 :: rest = 0 :: more := by
      cases k with
      | zero => exact ⟨rest, rfl⟩
      | succ k => exact ⟨List.replicate k 0 ++ 0 :: rest, by rw [List.replicate_succ, List.cons_append]⟩
    obtain ⟨more, hmore⟩ := hsplit
    have hagain := trimspace_spec (trim s) more hnul num hn (by omega)
    rw [trim_trim, Nat.sub_self, List.replicate_zero, List.append_nil] at hagain
    rw [List.append_assoc, hmore, hagain]
  refine ⟨j, u, hparts, hu, hlast, hhead, ?_, hsecond _⟩
  rw [hfirst, show s.length - (trim s).length = j + u.length by omega]

/-- "  a b", a carriage return and a line feed in a buffer of eight bytes. -/
theorem trimspace_trims_line : ∃ j u, [32, 32, 97, 32, 98, 13, 10] =
      List.replicate j 32 ++ trim [32, 32, 97, 32, 98, 13, 10] ++ u ∧ (∀ b ∈ u, isTail b = true) ∧
      (∀ h : trim [32, 32, 97, 32, 98, 13, 10] ≠ [],
        isTail ((trim [32, 32, 97, 32, 98, 13, 10]).getLast h) = false) ∧
      (trim [32, 32, 97, 32, 98, 13, 10]).head? ≠ some 32 ∧
      trimspace ([32, 32, 97, 32, 98, 13, 10] ++ 0 :: []) 1024 =
        some (trim [32, 32, 97, 32, 98, 13, 10] ++ List.replicate (j + u.length) 0 ++ 0 :: []) ∧
      trimspace (trim [32, 32, 97, 32, 98, 13, 10] ++ List.replicate (j + u.length) 0 ++ 0 :: []) 1024 =
        some (trim [32, 32, 97, 32, 98, 13, 10] ++ List.replicate (j + u.length) 0 ++ 0 :: []) :=
  trimspace_trims (by decide) [] (by decide) (by decide)

end TimeTask
