import TimeTask.Lib.Buffer
import TimeTask.Lib.Loop
import TimeTask.Trim

/-! loadFile: the configuration is read line by line, trimmed and packed into one
growing buffer of NUL-terminated records. -/
namespace TimeTask
open Lib

/-- A stream that fopen opened: the bytes still to come, and whether they end in a
read error that stays, or in the end of the file. -/
structure Stream where
  rest : List Byte
  fails : Bool
  eof : Bool
deriving DecidableEq, Repr

/-- The bytes of at most `n` that fgets takes, what it leaves, and whether it ran dry. -/
def takeLine : Nat → List Byte → List Byte × List Byte × Bool
  | 0, rest => ([], rest, false)
  | _ + 1, [] => ([], [], true)
  | n + 1, b :: rest =>
    if b = 10 then ([b], rest, false)
    else
      let (line, rest, dry) := takeLine n rest
      (b :: line, rest, dry)

/-- `fgets(chartem,num,fg)` into a buffer of `size` zeros. -/
def fgets (size num : Nat) (fg : Stream) : List Byte × Stream :=
  let (line, rest, dry) := takeLine (num - 1) fg.rest
  (line ++ List.replicate (size - line.length) 0, { fg with rest := rest, eof := dry && !fg.fails })

def toInt (x : Int) : Int := Int.bmod x (2 ^ 32)

def toSize (x : Int) : Nat := (x % 2 ^ 64).toNat

structure Load where
  fg : Stream
  iswrite : Bool
  maxsize : Int
  wherenow : Nat
  head : List Byte
deriving DecidableEq, Repr

/-- What the loop leaves with: `none` for an access outside a buffer, else the pointer
that loadFile returns. -/
abbrev LoadPass := Pass Load (Option (Option (List Byte)))

/-- The record made of a trimmed line, if any, and the new iswrite. -/
def lineRecord (iswrite : Bool) (chartem : List Byte) : Option (Option (List Byte) × Bool) :=
  if chartem[0]? = some 47 ∧ chartem[1]? = some 47 then some (none, iswrite)
  else
    match strlen chartem with
    | none => none
    | some temlen =>
      if temlen = 0 then some (if iswrite then (some [32], false) else (none, iswrite))
      else some (some (chartem.take temlen), true)

/-- The copy into a block of `maxsize` zeros. -/
def moveHead (maxsize : Nat) (s : Load) : Option (List Byte) :=
  if s.wherenow ≤ s.head.length then
    overwrite (List.replicate maxsize 0) 0 (s.head.take s.wherenow)
  else none

/-- `strncpy` of the record behind the others. -/
def putRecord (tem : List Byte) (s : Load) : LoadPass :=
  match overwrite s.head s.wherenow tem with
  | none => .leave none
  | some head => .again { s with head := head, wherenow := s.wherenow + tem.length + 1 }

def storeRecord (malloc : Nat → Bool) (tem : List Byte) (s : Load) : LoadPass :=
  if (tem.length : Int) ≥ s.maxsize - s.wherenow - 1 then
    let maxsize := toInt (s.maxsize + 1024)
    if malloc (toSize maxsize) then
      match moveHead (toSize maxsize) s with
      | none => .leave none
      | some head => putRecord tem { s with maxsize := maxsize, head := head }
    else .leave (some none)
  else putRecord tem s

def loadBody (malloc : Nat → Bool) (s : Load) : LoadPass :=
  let (chartem, fg) := fgets 1024 1023 s.fg
  if fg.eof then .leave (some (if s.wherenow = 0 then none else some s.head))
  else
    match (trimspace chartem 1024).bind (lineRecord s.iswrite) with
    | none => .leave none
    | some (none, iswrite) => .again { s with fg := fg, iswrite := iswrite }
    | some (some tem, iswrite) => storeRecord malloc tem { s with fg := fg, iswrite := iswrite }

/-- The state in front of the loop, or the pointer returned before it. -/
def loadInit (malloc : Nat → Bool) (fg : Option Stream) : Pass Load (Option (Option (List Byte))) :=
  match fg with
  | none => .leave (some none)
  | some fg =>
    if malloc 1024 then .again ⟨fg, false, 1024, 0, List.replicate 1024 0⟩
    else .leave (some none)

/-- loadFile returns the pointer `r`. -/
def LoadFile (malloc : Nat → Bool) (fg : Option Stream) (r : Option (List Byte)) : Prop :=
  match loadInit malloc fg with
  | .leave q => q = some r
  | .again s => Leaves (loadBody malloc) s (some r)

theorem LoadFile.unique {malloc : Nat → Bool} {fg : Option Stream} {r q : Option (List Byte)}
    (hr : LoadFile malloc fg r) (hq : LoadFile malloc fg q) : r = q := by
  unfold LoadFile at hr hq
  cases hi : loadInit malloc fg with
  | leave p =>
    simp only [hi] at hr hq
    rw [hr] at hq
    exact Option.some.inj hq
  | again s =>
    simp only [hi] at hr hq
    exact Option.some.inj (hr.unique hq)

/-- Records with their terminators, as they lie in the buffer. -/
def encode (recs : List (List Byte)) : List Byte := recs.flatMap fun r => r ++ [0]

theorem encode_append (a b : List (List Byte)) : encode (a ++ b) = encode a ++ encode b := by
  simp [encode]

theorem encode_cons (r : List Byte) (b : List (List Byte)) : encode (r :: b) = r ++ 0 :: encode b := by
  simp [encode]

theorem encode_snoc (recs : List (List Byte)) (r : List Byte) :
    encode (recs ++ [r]) = encode recs ++ r ++ [0] := by
  simp [encode]

theorem encode_snoc_length (recs : List (List Byte)) (r : List Byte) :
    (encode (recs ++ [r])).length = (encode recs).length + r.length + 1 := by
  simp [encode_snoc]
  omega

/-- The length from which on the size of the block no longer fits an int. -/
def packLimit : Nat := 2 ^ 31 - 1024

/-- The records `recs` are packed: the block is the least multiple of 1024 longer than
they are, and it is zero behind them. -/
structure Packed (recs : List (List Byte)) (s : Load) : Prop where
  wherenow : s.wherenow = (encode recs).length
  maxsize : s.maxsize = 1024 * (s.wherenow / 1024 + 1)
  head : s.head = encode recs ++ List.replicate (s.maxsize.toNat - s.wherenow) 0
  small : s.wherenow < packLimit

theorem Packed.room {recs : List (List Byte)} {s : Load} (h : Packed recs s) :
    s.wherenow < s.maxsize.toNat := by
  have hm := h.maxsize
  omega

theorem putRecord_spec {recs : List (List Byte)} (tem : List Byte) {s : Load} {n : Nat}
    (hw : s.wherenow = (encode recs).length) (hh : s.head = encode recs ++ List.replicate n 0)
    (hn : tem.length < n) :
    putRecord tem s = .again { s with
      head := encode (recs ++ [tem]) ++ List.replicate (n - (tem.length + 1)) 0
      wherenow := s.wherenow + tem.length + 1 } := by
  have hput := overwrite_zeros (encode recs) tem n (by omega)
  have hrest : n - tem.length = n - (tem.length + 1) + 1 := by omega
  rw [hrest, List.replicate_succ] at hput
  rw [← hh, ← hw] at hput
  simp [putRecord, hput, encode_snoc]

theorem moveHead_spec {recs : List (List Byte)} {s : Load} (hp : Packed recs s) {n : Nat}
    (hn : s.wherenow ≤ n) :
    moveHead n s = some (encode recs ++ List.replicate (n - s.wherenow) 0) := by
  have hlen : s.wherenow ≤ s.head.length := by
    rw [hp.head, hp.wherenow]
    simp
  have htake : s.head.take s.wherenow = encode recs := by
    rw [hp.head, hp.wherenow]
    simp
  have hput := overwrite_zeros [] (encode recs) n (by rw [← hp.wherenow]; exact hn)
  rw [moveHead, if_pos hlen, htake]
  simpa [hp.wherenow] using hput

theorem toInt_eq {x : Int} (h0 : 0 ≤ x) (h : x < 2 ^ 31) : toInt x = x := by
  rw [toInt, Int.bmod_eq_of_le] <;> omega

theorem toSize_eq {x : Int} (h0 : 0 ≤ x) (h : x < 2 ^ 31) : toSize x = x.toNat := by
  rw [toSize, Int.emod_eq_of_lt h0 (by omega)]

/-- What the allocator promises: a block that an int can count is there. -/
def MallocSmall (malloc : Nat → Bool) : Prop := ∀ n, n < 2 ^ 31 → malloc n = true

/-- No object is as large as half the address space. -/
def MallocHuge (malloc : Nat → Bool) : Prop := ∀ n, 2 ^ 63 ≤ n → malloc n = false

def blockSize (size : Nat) : Nat := 1024 * (size / 1024 + 1)

theorem Packed.snoc_length {recs : List (List Byte)} {s : Load} (hp : Packed recs s) (tem : List Byte) :
    (encode (recs ++ [tem])).length = s.wherenow + tem.length + 1 := by
  rw [encode_snoc_length, hp.wherenow]

theorem Packed.block {recs : List (List Byte)} {tem : List Byte} {s : Load} (hp : Packed recs s)
    (ht : tem.length ≤ 1022) :
    ((tem.length : Int) ≥ s.maxsize - s.wherenow - 1 →
      s.maxsize + 1024 = blockSize (encode (recs ++ [tem])).length) ∧
    (¬ (tem.length : Int) ≥ s.maxsize - s.wherenow - 1 →
      s.maxsize = blockSize (encode (recs ++ [tem])).length) := by
  have hmax := hp.maxsize
  rw [encode_snoc_length, ← hp.wherenow, blockSize]
  constructor
  · intro hgrow
    omega
  · intro hgrow
    omega

/-- One more record is packed when its block is below the limit and there. -/
theorem storeRecord_spec {malloc : Nat → Bool} {recs : List (List Byte)} {tem : List Byte} {s : Load}
    (hp : Packed recs s) (ht : tem.length ≤ 1022) (hs : (encode (recs ++ [tem])).length < packLimit)
    (hm : malloc (blockSize (encode (recs ++ [tem])).length) = true) :
    ∃ s', storeRecord malloc tem s = .again s' ∧ Packed (recs ++ [tem]) s' ∧
      s'.fg = s.fg ∧ s'.iswrite = s.iswrite := by
  have hroom := hp.room
  have hmax := hp.maxsize
  have hsmall := hp.small
  have hblock := hp.block ht
  have hlen := hp.snoc_length tem
  rw [hlen] at hs hm hblock
  simp only [packLimit, blockSize] at hs hsmall hm hblock
  by_cases hgrow : (tem.length : Int) ≥ s.maxsize - s.wherenow - 1
  · have hnew := hblock.1 hgrow
    have hint : toInt (s.maxsize + 1024) = s.maxsize + 1024 := toInt_eq (by omega) (by omega)
    have hsize : toSize (s.maxsize + 1024) = (s.maxsize + 1024).toNat := toSize_eq (by omega) (by omega)
    have halloc : malloc (s.maxsize + 1024).toNat = true := by
      rw [hnew]
      exact hm
    have hmove := moveHead_spec hp (n := (s.maxsize + 1024).toNat) (by omega)
    have hput := putRecord_spec tem
      (s := { s with maxsize := s.maxsize + 1024, head := encode recs ++
        List.replicate ((s.maxsize + 1024).toNat - s.wherenow) 0 }) hp.wherenow rfl (by omega)
    have hrun : storeRecord malloc tem s = putRecord tem { s with
        maxsize := s.maxsize + 1024
        head := encode recs ++ List.replicate ((s.maxsize + 1024).toNat - s.wherenow) 0 } := by
      simp only [storeRecord, hgrow, if_true, hint, hsize, halloc, hmove]
    refine ⟨_, hrun.trans hput, ⟨hlen.symm, ?_, ?_, ?_⟩, rfl, rfl⟩
    · simp only
      omega
    · simp only
      congr 2
      omega
    · simp only [packLimit]
      omega
  · have hput := putRecord_spec tem hp.wherenow hp.head (by omega)
    have hrun : storeRecord malloc tem s = putRecord tem s := by
      simp only [storeRecord, hgrow, if_false]
    refine ⟨_, hrun.trans hput, ⟨hlen.symm, ?_, ?_, ?_⟩, rfl, rfl⟩
    · simp only
      omega
    · simp only
      congr 2
      omega
    · simp only [packLimit]
      omega

theorem storeRecord_refused {malloc : Nat → Bool} {recs : List (List Byte)} {tem : List Byte} {s : Load}
    (hp : Packed recs s) (ht : tem.length ≤ 1022) (hs : (encode (recs ++ [tem])).length < packLimit)
    (hold : malloc (blockSize (encode recs).length) = true)
    (hm : malloc (blockSize (encode (recs ++ [tem])).length) = false) :
    storeRecord malloc tem s = .leave (some none) := by
  have hmax := hp.maxsize
  have hsmall := hp.small
  have hblock := hp.block ht
  have hlen := hp.snoc_length tem
  have hgrow : (tem.length : Int) ≥ s.maxsize - s.wherenow - 1 := by
    by_contra hn
    have hsame := hblock.2 hn
    have heq : blockSize (encode (recs ++ [tem])).length = blockSize (encode recs).length := by
      have hw := hp.wherenow
      simp only [blockSize] at hsame ⊢
      omega
    rw [heq, hold] at hm
    cases hm
  have hnew := hblock.1 hgrow
  simp only [packLimit] at hs hsmall
  have hint : toInt (s.maxsize + 1024) = s.maxsize + 1024 := toInt_eq (by omega) (by omega)
  have hsize : toSize (s.maxsize + 1024) = blockSize (encode (recs ++ [tem])).length := by
    rw [toSize_eq (by omega) (by omega), hnew]
    rfl
  simp only [storeRecord, hgrow, if_true, hint, hsize, hm]
  simp

/-- At the limit the new size wraps to a negative int, no block is that large, and
loadFile gives up. -/
theorem storeRecord_limit {malloc : Nat → Bool} (hm : MallocHuge malloc) {recs : List (List Byte)}
    {tem : List Byte} {s : Load} (hp : Packed recs s) (ht : tem.length ≤ 1022)
    (hs : packLimit ≤ (encode (recs ++ [tem])).length) :
    storeRecord malloc tem s = .leave (some none) := by
  have hroom := hp.room
  have hmax := hp.maxsize
  have hsmall := hp.small
  have hlen := hp.snoc_length tem
  rw [hlen] at hs
  simp only [packLimit] at hs hsmall
  have hgrow : (tem.length : Int) ≥ s.maxsize - s.wherenow - 1 := by omega
  have hfull : s.maxsize + 1024 = 2 ^ 31 := by omega
  have hsize : toSize (toInt (2 ^ 31)) = 2 ^ 64 - 2 ^ 31 := by decide
  have halloc : malloc (toSize (toInt (s.maxsize + 1024))) = false := by
    rw [hfull, hsize]
    exact hm _ (by omega)
  simp only [storeRecord, hgrow, if_true, halloc]
  simp

/-- The string that a line makes, trimmed: it ends at the first NUL. -/
def lineText (line : List Byte) : List Byte := trim (cstring line)

/-- The record that one trimmed line adds, if any, with the new iswrite. -/
def packText (iswrite : Bool) (t : List Byte) : Option (List Byte) × Bool :=
  if t.take 2 = [47, 47] then (none, iswrite)
  else if t = [] then (if iswrite then (some [32], false) else (none, iswrite))
  else (some t, true)

def packTexts : Bool → List (List Byte) → List (List Byte)
  | _, [] => []
  | iswrite, t :: ts => (packText iswrite t).1.toList ++ packTexts (packText iswrite t).2 ts

theorem lineRecord_spec (iswrite : Bool) (t z : List Byte) (ht : NulFree t) :
    lineRecord iswrite (t ++ 0 :: z) = some (packText iswrite t) := by
  have hcomment : ((t ++ 0 :: z)[0]? = some 47 ∧ (t ++ 0 :: z)[1]? = some 47) ↔
      t.take 2 = [47, 47] := by
    match t with
    | [] => simp
    | [a] => simp
    | a :: b :: t => simp
  simp only [lineRecord, hcomment, strlen_eq t z ht, packText]
  by_cases hc : t.take 2 = [47, 47]
  · simp [hc]
  · rw [if_neg hc, if_neg hc]
    cases t with
    | nil => cases iswrite <;> simp
    | cons b t => simp

theorem packText_length {iswrite : Bool} {t r : List Byte} (hr : (packText iswrite t).1 = some r) :
    r.length ≤ max 1 t.length := by
  unfold packText at hr
  split_ifs at hr <;> simp at hr <;> subst hr <;> simp

theorem trim_nulFree {s : List Byte} (h : NulFree s) : NulFree (trim s) := by
  intro b hb
  exact h b ((List.rdropWhile_prefix isTail s).subset ((List.dropWhile_sublist _).subset hb))

theorem line_string (line : List Byte) (n : Nat) (hn : n ≠ 0) : ∃ z,
    line ++ List.replicate n 0 = cstring line ++ 0 :: z := by
  induction line with
  | nil =>
    obtain ⟨n, rfl⟩ := Nat.exists_eq_succ_of_ne_zero hn
    exact ⟨List.replicate n 0, by simp [cstring, List.replicate_succ]⟩
  | cons b line ih =>
    obtain ⟨z, hz⟩ := ih
    by_cases hb : b = 0
    · exact ⟨line ++ List.replicate n 0, by simp [cstring, hb]⟩
    · exact ⟨z, by simpa [cstring, hb] using hz⟩

theorem lineText_lf (line : List Byte) : lineText (line ++ [10]) = lineText line := by
  have hlf : [(10 : Byte)].takeWhile (· ≠ 0) = [10] := rfl
  rw [lineText, lineText, trim, trim, cstring, cstring, List.takeWhile_append, hlf]
  by_cases hz : (line.takeWhile (· ≠ 0)).length = line.length
  · have hself := (List.takeWhile_prefix (l := line) (· ≠ 0)).eq_of_length hz
    rw [if_pos hz, hself, List.rdropWhile_concat_pos isTail line 10 rfl]
  · rw [if_neg hz]

theorem lineText_nulFree (line : List Byte) : NulFree (lineText line) :=
  trim_nulFree (cstring_nulFree line)

theorem lineText_length (line : List Byte) : (lineText line).length ≤ line.length :=
  le_trans (trim_length_le _) (cstring_length_le line)

theorem trimspace_line (line : List Byte) (h : line.length ≤ 1022) : ∃ z,
    trimspace (line ++ List.replicate (1024 - line.length) 0) 1024 = some (lineText line ++ 0 :: z) := by
  obtain ⟨z, hz⟩ := line_string line (1024 - line.length) (by omega)
  have hlen := cstring_length_le line
  rw [hz, trimspace_spec _ z (cstring_nulFree line) 1024 (by omega) (by omega)]
  generalize (cstring line).length - (trim (cstring line)).length = n
  cases n with
  | zero => exact ⟨z, by simp [lineText]⟩
  | succ n => exact ⟨List.replicate n 0 ++ 0 :: z, by simp [lineText, List.replicate_succ]⟩

/-- One pass over what fgets takes, when it does not meet the end of the file. -/
theorem loadBody_piece (malloc : Nat → Bool) {s : Load} {line rest : List Byte} {dry : Bool}
    (ht : takeLine 1022 s.fg.rest = (line, rest, dry)) (he : (dry && !s.fg.fails) = false)
    (hlen : line.length ≤ 1022) :
    loadBody malloc s =
      match packText s.iswrite (lineText line) with
      | (none, iswrite) => .again { s with fg := ⟨rest, s.fg.fails, false⟩, iswrite := iswrite }
      | (some tem, iswrite) =>
        storeRecord malloc tem { s with fg := ⟨rest, s.fg.fails, false⟩, iswrite := iswrite } := by
  obtain ⟨z, hz⟩ := trimspace_line line hlen
  have hrec := lineRecord_spec s.iswrite (lineText line) z (lineText_nulFree line)
  simp only [loadBody, fgets, Nat.add_one_sub_one, ht, he, hz, Option.bind_some, hrec]
  cases hp : packText s.iswrite (lineText line) with
  | mk tem iswrite => cases tem <;> simp

theorem loadBody_end (malloc : Nat → Bool) {s : Load} {line rest : List Byte}
    (ht : takeLine 1022 s.fg.rest = (line, rest, true)) (hf : s.fg.fails = false) :
    loadBody malloc s = .leave (some (if s.wherenow = 0 then none else some s.head)) := by
  simp [loadBody, fgets, ht, hf]

/-- The text of LF-terminated lines that all fit the line buffer. -/
def fileOf (lines : List (List Byte)) : List Byte := lines.flatMap fun l => l ++ [10]

def FitLines (lines : List (List Byte)) : Prop := ∀ l ∈ lines, l.length ≤ 1021 ∧ 10 ∉ l

/-- What loadFile returns for a file of such lines: the packed records, or NULL when
there are none or they are too many for an int. -/
def loaded (recs : List (List Byte)) : Option (List Byte) :=
  let size := (encode recs).length
  if size = 0 ∨ packLimit ≤ size then none
  else some (encode recs ++ List.replicate (1024 * (size / 1024 + 1) - size) 0)

theorem encode_mono (recs more : List (List Byte)) :
    (encode recs).length ≤ (encode (recs ++ more)).length := by
  simp [encode_append]

end TimeTask
