import Mathlib.Data.List.TakeWhile
import Mathlib.Data.UInt

/-! NUL-terminated byte strings. A string is the list of its bytes before the
NUL; a pointer into it is the rest of the list. -/
namespace TimeTask.Lib

/-- The byte behind a pointer: the NUL at the end of the string. -/
def deref : List UInt8 → UInt8
  | [] => 0
  | b :: _ => b

/-- A `char` as an `int`: plain char is signed. -/
def schar (b : UInt8) : Int := if b.toNat < 128 then b.toNat else (b.toNat : Int) - 256

/-- ASCII lower case: only the letters A to Z change. -/
def lower (b : UInt8) : UInt8 := if 65 ≤ b.toNat ∧ b.toNat ≤ 90 then b + 32 else b

/-- No byte of the string is the terminator. -/
def NulFree (s : List UInt8) : Prop := ∀ b ∈ s, b ≠ 0

instance (s : List UInt8) : Decidable (NulFree s) := List.decidableBAll (fun b => b ≠ 0) s

/-- The string at the start of a buffer: the bytes before the first NUL. -/
def cstring (s : List UInt8) : List UInt8 := s.takeWhile (· ≠ 0)

def SameName (s t : List UInt8) : Prop := s.map lower = t.map lower

instance (s t : List UInt8) : Decidable (SameName s t) :=
  inferInstanceAs (Decidable (s.map lower = t.map lower))

theorem SameName.refl (s : List UInt8) : SameName s s := rfl

theorem SameName.symm {s t : List UInt8} (h : SameName s t) : SameName t s := Eq.symm h

theorem SameName.trans {s t u : List UInt8} (h : SameName s t) (k : SameName t u) : SameName s u :=
  Eq.trans h k

theorem SameName.length {s t : List UInt8} (h : SameName s t) : s.length = t.length := by
  simpa using congrArg List.length h

theorem NulFree.take {s : List UInt8} (h : NulFree s) (n : Nat) : NulFree (s.take n) :=
  fun b hb => h b (List.mem_of_mem_take hb)

theorem NulFree.append {s t : List UInt8} (hs : NulFree s) (ht : NulFree t) : NulFree (s ++ t) :=
  fun b hb => (List.mem_append.mp hb).elim (hs b) (ht b)

theorem cstring_nulFree (s : List UInt8) : NulFree (cstring s) := by
  intro b hb
  simpa using List.mem_takeWhile_imp hb

theorem cstring_eq {s : List UInt8} (h : NulFree s) : cstring s = s := by
  rw [cstring, List.takeWhile_eq_self_iff]
  intro b hb
  simpa using h b hb

theorem cstring_length_le (s : List UInt8) : (cstring s).length ≤ s.length :=
  (List.takeWhile_sublist _).length_le

theorem schar_inj {x y : UInt8} (h : schar x = schar y) : x = y := by
  have hx := x.toNat_lt
  have hy := y.toNat_lt
  apply UInt8.toNat_inj.mp
  unfold schar at h
  split_ifs at h <;> omega

theorem schar_zero_iff (x : UInt8) : schar x = 0 ↔ x = 0 :=
  ⟨fun h => schar_inj (h.trans rfl), fun h => by subst h; rfl⟩

theorem lower_toNat (b : UInt8) :
    (lower b).toNat = if 65 ≤ b.toNat ∧ b.toNat ≤ 90 then b.toNat + 32 else b.toNat := by
  unfold lower
  split_ifs with h
  · have h32 : (32 : UInt8).toNat = 32 := rfl
    rw [UInt8.toNat_add, h32]
    omega
  · rfl

theorem lower_eq_iff (x y : UInt8) : lower x = lower y ↔
    x = y ∨ (65 ≤ x.toNat ∧ x.toNat ≤ 90 ∧ x.toNat + 32 = y.toNat) ∨
      (65 ≤ y.toNat ∧ y.toNat ≤ 90 ∧ y.toNat + 32 = x.toNat) := by
  rw [← UInt8.toNat_inj, ← UInt8.toNat_inj, lower_toNat, lower_toNat]
  split_ifs <;> omega

end TimeTask.Lib
