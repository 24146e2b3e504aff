import TimeTask.Lib.CString

/-! Arrays of bytes and the C functions that write strings into them. A write that does not
fit, or a read that finds no terminator, has no result. -/
namespace TimeTask.Lib

/-- `char a[n]={0}` -/
abbrev zeros (n : Nat) : List UInt8 := List.replicate n 0

/-- Write `tem` at a position; `none` when it does not fit. -/
def overwrite (head : List UInt8) (pos : Nat) (tem : List UInt8) : Option (List UInt8) :=
  if pos + tem.length ≤ head.length then
    some (head.take pos ++ tem ++ head.drop (pos + tem.length))
  else none

/-- The string at the start of an array, up to its terminator. -/
def readText (buf : List UInt8) : Option (List UInt8) :=
  (buf.findIdx? (· == 0)).map fun n => buf.take n

/-- `strcpy(buf,s)`, and `sprintf` when its format makes `s`. -/
def strcpy (buf s : List UInt8) : Option (List UInt8) := overwrite buf 0 (s ++ [0])

def strcat (buf s : List UInt8) : Option (List UInt8) :=
  (readText buf).bind fun t => overwrite buf t.length (s ++ [0])

/-- `strncpy(buf,s,n)` writes `n` bytes: those of `s`, then zeros. -/
def strncpy (buf s : List UInt8) (n : Nat) : Option (List UInt8) :=
  overwrite buf 0 (s.take n ++ List.replicate (n - s.length) 0)

/-- The array of `n` bytes holds the string `s` and its terminator. -/
structure Text (n : Nat) (s buf : List UInt8) : Prop where
  nulFree : NulFree s
  length : buf.length = n
  start : ∃ rest, buf = s ++ 0 :: rest

/-- What a function that writes `s` into an array of `n` bytes returns. -/
def Writes (n : Nat) (s : List UInt8) (r : Option (List UInt8)) : Prop :=
  (s.length < n → ∃ buf, r = some buf ∧ Text n s buf) ∧ (n ≤ s.length → r = none)

theorem overwrite_zeros (a tem : List UInt8) (n : Nat) (h : tem.length ≤ n) :
    overwrite (a ++ List.replicate n 0) a.length tem =
      some (a ++ tem ++ List.replicate (n - tem.length) 0) := by
  have hfit : a.length + tem.length ≤ (a ++ List.replicate n (0 : UInt8)).length := by
    simpa using h
  rw [overwrite, if_pos hfit]
  simp [List.drop_append]

theorem overwrite_append (a b c tem : List UInt8) (h : tem.length = b.length) :
    overwrite (a ++ b ++ c) a.length tem = some (a ++ tem ++ c) := by
  have hfit : a.length + tem.length ≤ (a ++ b ++ c).length := by
    simp only [List.length_append]
    omega
  have hpos : a.length + tem.length = (a ++ b).length := by rw [List.length_append, h]
  rw [overwrite, if_pos hfit, hpos, List.drop_left, List.append_assoc a b c, List.take_left]

theorem overwrite_none {buf tem : List UInt8} {pos : Nat} (h : buf.length < pos + tem.length) :
    overwrite buf pos tem = none := if_neg (Nat.not_le.mpr h)

section Texts
variable {n : Nat} {s t buf : List UInt8}

theorem Text.read (h : Text n s buf) : readText buf = some s := by
  obtain ⟨rest, hbuf⟩ := h.start
  have hidx : (s ++ 0 :: rest).findIdx? (· == 0) = some s.length := by
    have hs : s.findIdx? (· == 0) = none := by
      rw [List.findIdx?_eq_none_iff]
      intro b hb
      simpa using h.nulFree b hb
    rw [List.findIdx?_append, hs]
    simp [List.findIdx?_cons]
  rw [readText, hbuf, hidx, Option.map_some, List.take_left]

theorem Text.fits (h : Text n s buf) : s.length < n := by
  obtain ⟨rest, hbuf⟩ := h.start
  have hlen := h.length
  rw [hbuf, List.length_append, List.length_cons] at hlen
  omega

theorem split_buffer (hlen : buf.length = n) (i k : Nat) (h : i + k < n) : ∃ a b rest,
    buf = a ++ b ++ rest ∧ a.length = i ∧ b.length = k + 1 := by
  refine ⟨buf.take i, (buf.drop i).take (k + 1), (buf.drop i).drop (k + 1), ?_, ?_, ?_⟩
  · rw [List.append_assoc, List.take_append_drop, List.take_append_drop]
  · rw [List.length_take]
    omega
  · rw [List.length_take, List.length_drop]
    omega

theorem strcpy_writes (hlen : buf.length = n) (hs : NulFree s) : Writes n s (strcpy buf s) := by
  constructor
  · intro hfit
    obtain ⟨a, b, rest, hbuf, ha, hb⟩ := split_buffer hlen 0 s.length (by omega)
    have hnil : a = [] := List.length_eq_zero_iff.mp ha
    subst hnil
    have hput := overwrite_append [] b rest (s ++ [0]) (by rw [hb, List.length_append, List.length_singleton])
    rw [← hbuf] at hput
    refine ⟨_, hput, hs, ?_, rest, by simp⟩
    rw [← hlen, hbuf]
    simp only [List.length_append, List.length_singleton, List.length_nil, hb]
  · intro hlong
    refine overwrite_none ?_
    rw [List.length_append, List.length_singleton]
    omega

theorem strcpy_zeros (n : Nat) (hs : NulFree s) : Writes n s (strcpy (zeros n) s) :=
  strcpy_writes List.length_replicate hs

/-- strcat fits when both strings and one terminator do. -/
theorem strcat_writes (h : Text n t buf) (hs : NulFree s) : Writes n (t ++ s) (strcat buf s) := by
  obtain ⟨rest, hbuf⟩ := h.start
  have hrun : strcat buf s = overwrite buf t.length (s ++ [0]) := by
    rw [strcat, h.read, Option.bind_some]
  have hnul : NulFree (t ++ s) := h.nulFree.append hs
  rw [hrun, Writes, List.length_append]
  constructor
  · intro hfit
    obtain ⟨a, b, more, hcut, ha, hb⟩ := split_buffer h.length t.length s.length hfit
    have hat : a = t := by
      have htake := hcut.symm.trans hbuf
      rw [List.append_assoc] at htake
      exact List.append_inj_left htake ha
    subst hat
    have hput := overwrite_append a b more (s ++ [0]) (by rw [hb, List.length_append, List.length_singleton])
    rw [← hcut] at hput
    refine ⟨_, hput, hnul, ?_, more, by simp⟩
    rw [← h.length, hcut]
    simp only [List.length_append, List.length_singleton, hb]
  · intro hlong
    refine overwrite_none ?_
    rw [List.length_append, List.length_singleton, h.length]
    omega

theorem Text.set {x b : UInt8} (h : Text n (s ++ x :: t) buf) (hb : b ≠ 0) :
    ∃ out, overwrite buf s.length [b] = some out ∧ Text n (s ++ b :: t) out := by
  obtain ⟨rest, hbuf⟩ := h.start
  have hcut : buf = s ++ [x] ++ (t ++ 0 :: rest) := by rw [hbuf, List.append_assoc, List.append_assoc]; rfl
  have hput := overwrite_append s [x] (t ++ 0 :: rest) [b] rfl
  rw [← hcut] at hput
  refine ⟨_, hput, ?_, ?_, rest, by simp⟩
  · intro c hc
    have hold := h.nulFree c
    simp only [List.mem_append, List.mem_cons] at hc hold
    obtain hc | rfl | hc := hc
    · exact hold (.inl hc)
    · exact hb
    · exact hold (.inr (.inr hc))
  · rw [← h.length, hcut]
    simp

theorem text_singleton {b : UInt8} (hb : b ≠ 0) (hn : 1 < n) :
    ∃ out, overwrite (zeros n) 0 [b] = some out ∧ Text n [b] out := by
  have hput := overwrite_zeros [] [b] n (Nat.le_of_lt hn)
  refine ⟨_, hput, ?_, ?_, List.replicate (n - 2) 0, ?_⟩
  · intro c hc
    rw [List.mem_singleton.mp hc]
    exact hb
  · simp
    omega
  · rw [List.length_singleton, show n - 1 = n - 2 + 1 by omega, List.replicate_succ]
    rfl

/-- strncpy into an array of zeros leaves a terminator when it stays below the size. -/
theorem strncpy_text {k : Nat} (hs : NulFree s) (hk : k ≤ s.length) (h : k < n) :
    ∃ out, strncpy (List.replicate n 0) s k = some out ∧ Text n (s.take k) out := by
  have hlen : (s.take k).length = k := List.length_take_of_le hk
  have hput := overwrite_zeros [] (s.take k) n (by omega)
  rw [List.nil_append, List.nil_append, List.length_nil, hlen] at hput
  refine ⟨s.take k ++ List.replicate (n - k) 0, ?_, hs.take k, ?_, List.replicate (n - k - 1) 0, ?_⟩
  · rw [strncpy, Nat.sub_eq_zero_of_le hk, List.replicate_zero, List.append_nil]
    exact hput
  · rw [List.length_append, List.length_replicate, hlen]
    omega
  · rw [show n - k = (n - k - 1) + 1 by omega, List.replicate_succ]
    rfl

section Writes
variable {r : Option (List UInt8)}

theorem Writes.read (h : Writes n s r) : r.bind readText = if s.length < n then some s else none := by
  by_cases hfit : s.length < n
  · obtain ⟨buf, hbuf, htext⟩ := h.1 hfit
    rw [if_pos hfit, hbuf, Option.bind_some, htext.read]
  · rw [if_neg hfit, h.2 (Nat.not_lt.mp hfit), Option.bind_none]

theorem Writes.bind (h : Writes n t r) {f : List UInt8 → Option (List UInt8)} (hle : t.length ≤ s.length)
    (hf : ∀ buf, Text n t buf → Writes n s (f buf)) : Writes n s (r.bind f) := by
  by_cases hfit : t.length < n
  · obtain ⟨buf, hbuf, htext⟩ := h.1 hfit
    rw [hbuf, Option.bind_some]
    exact hf buf htext
  · rw [h.2 (Nat.not_lt.mp hfit), Option.bind_none]
    exact ⟨fun hlt => absurd hlt (by omega), fun _ => rfl⟩

end Writes
end Texts

end TimeTask.Lib
