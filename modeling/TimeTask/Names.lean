import TimeTask.Types
import TimeTask.Lib.CString

/-! strIsSame, the bounded comparison of section and module names. -/
namespace TimeTask
open Lib

/-- The loop of strIsSame with the two pointers at position `i` and `left` positions to go. -/
def strIsSameFrom (Aanum : Int) : Nat → Int → List Byte → List Byte → Int
  | 0, _, _, _ => 0
  | left + 1, i, AA, BB =>
    let x := schar (deref AA)
    let y := schar (deref BB)
    -- the end of either string leaves the loop; only both ends together are equal
    if x = 0 ∨ y = 0 then (if x = 0 ∧ y = 0 then 0 else i + 1)
    else if x = y then strIsSameFrom Aanum left (i + 1) AA.tail BB.tail
    else if x + Aanum = y ∨ x = y + Aanum then
      if x < 65 ∨ y < 65 ∨ x > 122 ∨ y > 122 then i + 1
      else strIsSameFrom Aanum left (i + 1) AA.tail BB.tail
    else i + 1

/-- `nAa` asks for the case to be ignored. -/
def strIsSame (AA BB : Option (List Byte)) (num : Int) (nAa : Bool) : Int :=
  match AA, BB with
  | some AA, some BB =>
    if num < 1 then -1
    else strIsSameFrom (if nAa then 32 else 0) num.toNat 0 AA BB
  | _, _ => -1

/-- One position of the comparison that ignores case: the range test lets exactly the
pairs of an upper and its lower case letter pass. -/
theorem fold_char (x y : UInt8) :
    (schar x = schar y ∨ ((schar x + 32 = schar y ∨ schar x = schar y + 32) ∧
      ¬ (schar x < 65 ∨ schar y < 65 ∨ schar x > 122 ∨ schar y > 122))) ↔ lower x = lower y := by
  have hxn := x.toNat_lt
  have hyn := y.toNat_lt
  have he : x = y ↔ x.toNat = y.toNat := UInt8.toNat_inj.symm
  rw [lower_eq_iff, he]
  unfold schar
  split_ifs <;> omega

/-- The byte that strIsSame compares. -/
def folded (nAa : Bool) (b : Byte) : Byte := if nAa then lower b else b

theorem strIsSameFrom_cons (nAa : Bool) (left : Nat) (i : Int) {x y : Byte} (AA BB : List Byte)
    (hx : x ≠ 0) (hy : y ≠ 0) :
    strIsSameFrom (if nAa then 32 else 0) (left + 1) i (x :: AA) (y :: BB) =
      if folded nAa x = folded nAa y then strIsSameFrom (if nAa then 32 else 0) left (i + 1) AA BB
      else i + 1 := by
  have hx' : schar x ≠ 0 := fun h => hx ((schar_zero_iff x).mp h)
  have hy' : schar y ≠ 0 := fun h => hy ((schar_zero_iff y).mp h)
  simp only [strIsSameFrom, deref, hx', hy', or_self, if_false, List.tail_cons]
  cases nAa with
  | false =>
    have heq : schar x = schar y ↔ x = y := ⟨schar_inj, congrArg schar⟩
    simp only [folded, Bool.false_eq_true, if_false, add_zero, or_self, heq]
    by_cases he : x = y
    · simp only [he, if_true]
    · simp only [he, if_false]
  | true =>
    have hf := fold_char x y
    simp only [folded, if_true, ← hf]
    by_cases he : schar x = schar y
    · simp [he]
    · by_cases hs : schar x + 32 = schar y ∨ schar x = schar y + 32
      · by_cases hr : schar x < 65 ∨ schar y < 65 ∨ schar x > 122 ∨ schar y > 122
        · simp only [he, hs, hr, if_true, if_false, not_true_eq_false, and_false, or_false]
        · simp only [he, hs, hr, if_true, if_false, not_false_eq_true, and_true, or_true]
      · simp only [he, hs, if_false, false_and, or_false]

theorem strIsSameFrom_end (Aanum : Int) (left : Nat) (i : Int) {x : Byte} (s : List Byte) (hx : x ≠ 0) :
    strIsSameFrom Aanum (left + 1) i (x :: s) [] = i + 1 ∧
    strIsSameFrom Aanum (left + 1) i [] (x :: s) = i + 1 := by
  have hx' : schar x ≠ 0 := fun h => hx ((schar_zero_iff x).mp h)
  have hz : schar 0 = 0 := rfl
  simp [strIsSameFrom, deref, hx', hz]

/-- The strings agree in front of position `k` and not at it; the end of a string is no byte. -/
def DiffersAt (f : Byte → Byte) (AA BB : List Byte) (k : Nat) : Prop :=
  (AA.take k).map f = (BB.take k).map f ∧ (AA[k]?).map f ≠ (BB[k]?).map f

theorem differsAt_cons {f : Byte → Byte} {x y : Byte} {AA BB : List Byte} {k : Nat} (hxy : f x = f y)
    (h : DiffersAt f AA BB k) : DiffersAt f (x :: AA) (y :: BB) (k + 1) := by
  refine ⟨?_, h.2⟩
  rw [List.take_succ_cons, List.take_succ_cons, List.map_cons, List.map_cons, hxy, h.1]

/-- Equal prefixes give zero, and others the position behind the first difference. -/
theorem strIsSameFrom_spec (nAa : Bool) (left : Nat) (i : Int) (AA BB : List Byte)
    (hA : NulFree AA) (hB : NulFree BB) :
    ((AA.take left).map (folded nAa) = (BB.take left).map (folded nAa) ∧
      strIsSameFrom (if nAa then 32 else 0) left i AA BB = 0) ∨
    ∃ k < left, DiffersAt (folded nAa) AA BB k ∧
      strIsSameFrom (if nAa then 32 else 0) left i AA BB = i + k + 1 := by
  induction left generalizing i AA BB with
  | zero => exact Or.inl ⟨rfl, rfl⟩
  | succ left ih =>
    cases AA with
    | nil =>
      cases BB with
      | nil => exact Or.inl ⟨rfl, rfl⟩
      | cons y BB =>
        have hend := (strIsSameFrom_end (if nAa then 32 else 0) left i BB (hB y List.mem_cons_self)).2
        exact Or.inr ⟨0, Nat.succ_pos left, ⟨rfl, by simp⟩, by rw [hend]; simp⟩
    | cons x AA =>
      cases BB with
      | nil =>
        have hend := (strIsSameFrom_end (if nAa then 32 else 0) left i AA (hA x List.mem_cons_self)).1
        exact Or.inr ⟨0, Nat.succ_pos left, ⟨rfl, by simp⟩, by rw [hend]; simp⟩
      | cons y BB =>
        rw [strIsSameFrom_cons nAa left i AA BB (hA x List.mem_cons_self) (hB y List.mem_cons_self)]
        by_cases hxy : folded nAa x = folded nAa y
        · rw [if_pos hxy]
          have hi := ih (i + 1) AA BB (fun b hb => hA b (List.mem_cons_of_mem x hb))
            (fun b hb => hB b (List.mem_cons_of_mem y hb))
          cases hi with
          | inl hsame =>
            refine Or.inl ⟨?_, hsame.2⟩
            rw [List.take_succ_cons, List.take_succ_cons, List.map_cons, List.map_cons, hxy, hsame.1]
          | inr hdiff =>
            obtain ⟨k, hk, hd, hr⟩ := hdiff
            refine Or.inr ⟨k + 1, Nat.succ_lt_succ hk, differsAt_cons hxy hd, ?_⟩
            rw [hr]
            push_cast
            omega
        · rw [if_neg hxy]
          exact Or.inr ⟨0, Nat.succ_pos left, ⟨rfl, by simpa using hxy⟩, by simp⟩

theorem DiffersAt.take_ne {f : Byte → Byte} {AA BB : List Byte} {k n : Nat} (h : DiffersAt f AA BB k)
    (hk : k < n) : (AA.take n).map f ≠ (BB.take n).map f := by
  intro hsame
  have hget := congrArg (fun l => l[k]?) hsame
  simp only [List.getElem?_map, List.getElem?_take_of_lt hk] at hget
  exact h.2 hget

theorem strIsSame_zero_iff {AA BB : List Byte} (hA : NulFree AA) (hB : NulFree BB) {num : Int}
    (hnum : 1 ≤ num) (nAa : Bool) : strIsSame (some AA) (some BB) num nAa = 0 ↔
      (AA.take num.toNat).map (folded nAa) = (BB.take num.toNat).map (folded nAa) := by
  have hpos : ¬ num < 1 := by omega
  simp only [strIsSame, if_neg hpos]
  cases strIsSameFrom_spec nAa num.toNat 0 AA BB hA hB with
  | inl hsame => exact iff_of_true hsame.2 hsame.1
  | inr hdiff =>
    obtain ⟨k, hk, hd, hr⟩ := hdiff
    refine iff_of_false ?_ (hd.take_ne hk)
    rw [hr]
    omega

/-- strIsSame is zero on equal prefixes, equal up to case if asked, and otherwise counts to the
first difference; so it is an equivalence. -/
theorem strIsSame_compares {AA BB : List Byte} (hA : NulFree AA) (hB : NulFree BB) {num : Int}
    (hnum : 1 ≤ num) (nAa : Bool) :
    (strIsSame (some AA) (some BB) num nAa = 0 ↔
      (AA.take num.toNat).map (folded nAa) = (BB.take num.toNat).map (folded nAa)) ∧
    (strIsSame (some AA) (some BB) num nAa ≠ 0 → ∃ k : Nat, (k : Int) < num ∧
      DiffersAt (folded nAa) AA BB k ∧ strIsSame (some AA) (some BB) num nAa = k + 1) ∧
    Equivalence fun s t : {s : List Byte // NulFree s} => strIsSame (some s.1) (some t.1) num nAa = 0 := by
  refine ⟨strIsSame_zero_iff hA hB hnum nAa, fun hne => ?_, ?_⟩
  · have hpos : ¬ num < 1 := by omega
    simp only [strIsSame, if_neg hpos] at hne ⊢
    cases strIsSameFrom_spec nAa num.toNat 0 AA BB hA hB with
    | inl hsame => exact absurd hsame.2 hne
    | inr hdiff =>
      obtain ⟨k, hk, hd, hr⟩ := hdiff
      exact ⟨k, by omega, hd, by rw [hr, Int.zero_add]⟩
  · have hiff : ∀ s t : {s : List Byte // NulFree s}, strIsSame (some s.1) (some t.1) num nAa = 0 ↔
        (s.1.take num.toNat).map (folded nAa) = (t.1.take num.toNat).map (folded nAa) :=
      fun s t => strIsSame_zero_iff s.2 t.2 hnum nAa
    simp only [hiff]
    exact ⟨fun _ => rfl, fun h => h.symm, fun h k => h.trans k⟩

/-- "aB" and "Abc" differ at the end of the first. -/
theorem strIsSame_compares_short :
    ((strIsSame (some [97, 66]) (some [65, 98, 99]) 32 true = 0 ↔
      ([97, 66].take 32).map (folded true) = ([65, 98, 99].take 32).map (folded true)) ∧
    (strIsSame (some [97, 66]) (some [65, 98, 99]) 32 true ≠ 0 → ∃ k : Nat, (k : Int) < 32 ∧
      DiffersAt (folded true) [97, 66] [65, 98, 99] k ∧
      strIsSame (some [97, 66]) (some [65, 98, 99]) 32 true = k + 1) ∧
    Equivalence fun s t : {s : List Byte // NulFree s} => strIsSame (some s.1) (some t.1) 32 true = 0) ∧
    strIsSame (some [97, 66]) (some [65, 98, 99]) 32 true = 3 :=
  ⟨strIsSame_compares (by decide) (by decide) (by decide) true, by decide⟩

theorem strIsSame_fold (AA BB : List Byte) (hA : NulFree AA) (hB : NulFree BB)
    (hAl : AA.length < nameCharNumMax) (hBl : BB.length < nameCharNumMax) :
    strIsSame (some AA) (some BB) nameCharNumMax true = 0 ↔ SameName AA BB := by
  have hnum : (1 : Int) ≤ nameCharNumMax := by decide
  have h := strIsSame_zero_iff hA hB hnum true
  rw [Int.toNat_natCast, List.take_of_length_le (by omega), List.take_of_length_le (by omega)] at h
  exact h

end TimeTask
