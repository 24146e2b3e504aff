import TimeTask.Lib.Buffer
import TimeTask.LoadLib
import TimeTask.Options

/-! The arrays of loadLib: the copies of a library's name and of its path. -/
namespace TimeTask
open Lib

/-- `LIBDIRCHAR`, the directory without an option. -/
def libdirchar : List Byte := ascii "../libdir"

/-- The directory that main hands to loadLib. -/
def libDir (libwhere : Option (List Byte)) : List Byte := libwhere.getD libdirchar

/-- The local arrays chaa and chbb, and the two of libdata in the new node. -/
structure LibTexts where
  chaa : List Byte
  chbb : List Byte
  name : List Byte
  wherename : List Byte

/-- `strncpy(dst,src,strlen(src))` into zeros -/
def copyText (n : Nat) (src : List Byte) : Option (List Byte) :=
  (readText src).bind fun s => strncpy (zeros n) s s.length

/-- The copies of loadLib for one entry; `none` when one of them leaves its array. -/
def copyTexts (dirch : List Byte) (e : Entry) : Option LibTexts :=
  let chnum := e.dName.length - 6
  (strncpy (zeros nameCharNumMax) (e.dName.drop 3) chnum).bind fun chaa =>
    (strcpy (zeros 64) (dirch ++ 47 :: e.dName)).bind fun chbb =>
      (copyText 32 chaa).bind fun name =>
        (copyText 64 chbb).map fun wherename => ⟨chaa, chbb, name, wherename⟩

structure LibTexts.Hold (t : LibTexts) (dirch : List Byte) (e : Entry) : Prop where
  chaa : Text nameCharNumMax e.chaa t.chaa
  chbb : Text 64 (e.chbb dirch) t.chbb
  name : Text 32 e.chaa t.name
  wherename : Text 64 (e.chbb dirch) t.wherename

theorem copyText_text {n : Nat} {s src : List Byte} (h : Text n s src) :
    ∃ out, copyText n src = some out ∧ Text n s out := by
  obtain ⟨out, hout, htext⟩ := strncpy_text h.nulFree (Nat.le_refl s.length) h.fits
  rw [List.take_length] at htext
  refine ⟨out, ?_, htext⟩
  rw [copyText, h.read, Option.bind_some]
  exact hout

theorem Entry.chbb_nulFree {dirch : List Byte} (h : NulFree dirch) (e : Entry) : NulFree (e.chbb dirch) := by
  have hslash : NulFree [47] := by decide
  exact h.append (hslash.append e.nulFree)

theorem Entry.chbb_length (dirch : List Byte) (e : Entry) :
    (e.chbb dirch).length = dirch.length + 1 + e.dName.length := by
  rw [Entry.chbb, List.length_append, List.length_cons]
  omega

section Copies
variable {dirch : List Byte} {e : Entry}

theorem chaa_text (hc : e.candidate = true) : ∃ chaa,
    strncpy (zeros nameCharNumMax) (e.dName.drop 3) (e.dName.length - 6) = some chaa ∧
      Text nameCharNumMax e.chaa chaa := by
  obtain ⟨hlow, hhigh⟩ := Entry.candidate_length hc
  have hnul : NulFree (e.dName.drop 3) := fun b hb => e.nulFree b (List.mem_of_mem_drop hb)
  refine strncpy_text hnul ?_ ?_
  · rw [List.length_drop]
    omega
  · rw [nameCharNumMax]
    omega

theorem chbb_writes (hd : NulFree dirch) (e : Entry) :
    Writes 64 (e.chbb dirch) (strcpy (zeros 64) (dirch ++ 47 :: e.dName)) :=
  strcpy_zeros 64 (e.chbb_nulFree hd)

theorem copyTexts_hold (hd : NulFree dirch) (hc : e.candidate = true) (hfit : (e.chbb dirch).length < 64) :
    ∃ t, copyTexts dirch e = some t ∧ t.Hold dirch e := by
  obtain ⟨chaa, hchaa, htext⟩ := chaa_text hc
  obtain ⟨chbb, hchbb, hpath⟩ := (chbb_writes hd e).1 hfit
  obtain ⟨name, hname, hnametext⟩ := copyText_text htext
  obtain ⟨wherename, hwhere, hwheretext⟩ := copyText_text hpath
  refine ⟨⟨chaa, chbb, name, wherename⟩, ?_, htext, hpath, hnametext, hwheretext⟩
  rw [copyTexts, hchaa, Option.bind_some, hchbb, Option.bind_some]
  rw [nameCharNumMax] at hname
  rw [hname, Option.bind_some, hwhere, Option.map_some]

theorem copyTexts_none (hd : NulFree dirch) (hc : e.candidate = true) (hlong : 64 ≤ (e.chbb dirch).length) :
    copyTexts dirch e = none := by
  obtain ⟨chaa, hchaa, -⟩ := chaa_text hc
  rw [copyTexts, hchaa, Option.bind_some, (chbb_writes hd e).2 hlong, Option.bind_none]

/-- The copies stay inside their arrays exactly when directory and name together have at most
62 bytes. -/
theorem copyTexts_iff (libwhere : Option (List Byte)) (hd : ∀ d, libwhere = some d → NulFree d) (e : Entry)
    (hc : e.candidate = true) :
    (∃ t, copyTexts (libDir libwhere) e = some t ∧ t.Hold (libDir libwhere) e) ↔
      (libDir libwhere).length + e.dName.length ≤ 62 := by
  have hnul : NulFree (libDir libwhere) := by
    cases libwhere with
    | none =>
      change NulFree libdirchar
      decide
    | some d => exact hd d rfl
  have hlen := e.chbb_length (libDir libwhere)
  constructor
  · intro h
    obtain ⟨t, ht, -⟩ := h
    by_contra hlong
    rw [copyTexts_none hnul hc (by omega)] at ht
    cases ht
  · intro hfit
    exact copyTexts_hold hnul hc (by omega)

theorem copyTexts_iff_short : (∃ t, copyTexts (libDir (some [100])) (aLib 1) = some t ∧
    t.Hold (libDir (some [100])) (aLib 1)) ↔ (libDir (some [100])).length + (aLib 1).dName.length ≤ 62 := by
  refine copyTexts_iff (some [100]) ?_ (aLib 1) (by decide)
  intro d hd
  rw [← Option.some.inj hd]
  decide

/-- A path that is one byte too long: the terminator of chbb is written behind the array. -/
theorem copyTexts_overflows : ¬ ∀ (libwhere : Option (List Byte)) (e : Entry),
    (∀ d, libwhere = some d → NulFree d) → e.candidate = true →
      ∃ t, copyTexts (libDir libwhere) e = some t ∧ t.Hold (libDir libwhere) e := by
  intro h
  have hd : ∀ d, some (List.replicate 56 (100 : Byte)) = some d → NulFree d := by
    intro d hd b hb
    rw [← Option.some.inj hd, List.mem_replicate] at hb
    rw [hb.2]
    decide
  have hc : (aLib 1).candidate = true := by decide
  obtain ⟨t, ht, -⟩ := h (some (List.replicate 56 100)) (aLib 1) hd hc
  have hnone : copyTexts (List.replicate 56 100) (aLib 1) = none := copyTexts_none (hd _ rfl) hc (by decide)
  exact absurd (hnone.symm.trans ht) (by simp)

/-- Without an option, and with every directory of at most 25 bytes, all files fit. -/
theorem copyTexts_short (hd : NulFree dirch) (hc : e.candidate = true) (h : dirch.length ≤ 25) :
    ∃ t, copyTexts dirch e = some t ∧ t.Hold dirch e := by
  have hname := (Entry.candidate_length hc).2
  refine copyTexts_hold hd hc ?_
  rw [e.chbb_length]
  omega

end Copies

/-- The entries for which loadLib makes its copies: it stops behind the first candidate that
gets no node. -/
def reached : List Entry → List Entry
  | [] => []
  | e :: es =>
    if e.candidate then
      if e.good then e :: reached es else [e]
    else reached es

theorem loadLoop_none_iff {dirch : List Byte} {m₀ : Mem} {l : List Addr} (es : List Entry) :
    ∀ (done : List Entry) (n : Nat) (m : Mem), Appended dirch m₀ l done m →
      (loadLoop dirch es n m = none ↔ ∃ e ∈ reached es, 64 ≤ (e.chbb dirch).length) := by
  induction es with
  | nil =>
    intro done n m h
    simp [loadLoop, reached]
  | cons e es ih =>
    intro done n m h
    rw [reached]
    cases hc : e.candidate with
    | false =>
      rw [if_neg Bool.false_ne_true, ← ih done n m h]
      simp [loadLoop, hc]
    | true =>
      rw [if_pos rfl]
      by_cases hlong : 64 ≤ (e.chbb dirch).length
      · refine iff_of_true (by simp [loadLoop, hc, hlong]) ⟨e, ?_, hlong⟩
        cases e.good <;> simp
      · obtain ⟨hgood, m₁, happ, hgo⟩ | ⟨hgood, ret, m₁, -, hgo⟩ :=
          loadLoop_step h hc (Nat.not_le.mp hlong)
        · rw [hgo, hgood, if_pos rfl, ih (done ++ [e]) (n + 1) m₁ happ]
          simp [hlong]
        · rw [hgo, hgood, if_neg Bool.false_ne_true]
          simp [hlong]

theorem reached_candidate (es : List Entry) : ∀ e ∈ reached es, e.candidate = true := by
  induction es with
  | nil => simp [reached]
  | cons e es ih =>
    rw [reached]
    cases hc : e.candidate with
    | false => exact ih
    | true =>
      cases e.good with
      | false => simpa using hc
      | true => exact List.forall_mem_cons.mpr ⟨hc, ih⟩

/-- The model of loadLib has no result exactly when a copy for an entry that it reaches leaves
its array. -/
theorem loadLib_none_iff {dirch : List Byte} (hd : NulFree dirch) {es : List Entry} {m : Mem} {l : List Addr}
    (hl : m.ListIs l) (ht : l ≠ [] → m.cycheadnext = l.getLast?) :
    loadLib (some dirch) (some es) m = none ↔ ∃ e ∈ reached es, copyTexts dirch e = none := by
  have hstart : Appended dirch (m.emit [.opendir]) l [] (m.emit [.opendir]) := Appended.nil hl ht
  rw [loadLib, loadLoop_none_iff es [] 0 _ hstart]
  refine exists_congr fun e => and_congr_right fun he => ?_
  have hc := reached_candidate es e he
  constructor
  · exact copyTexts_none hd hc
  · intro hnone
    by_contra hshort
    obtain ⟨t, htexts, -⟩ := copyTexts_hold hd hc (Nat.not_le.mp hshort)
    rw [hnone] at htexts
    cases htexts

end TimeTask
