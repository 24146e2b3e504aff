import TimeTask.Grammar

/-! The packed buffer is never left, neither by loadFile nor by readFile. -/
namespace TimeTask
open Lib

theorem lineText_first (line : List Byte) : deref (lineText line) ≠ 32 := by
  intro h
  rw [lineText, trim] at h
  cases hd : (List.dropWhile (· == 32) ((cstring line).rdropWhile isTail)) with
  | nil =>
    rw [hd] at h
    cases h
  | cons b t =>
    rw [hd] at h
    have hhead := List.head?_dropWhile_not (· == 32) ((cstring line).rdropWhile isTail)
    rw [hd] at hhead
    simp [deref] at h
    simp [h] at hhead

theorem packText_cases (w : Bool) (line : List Byte) :
    packText w (lineText line) = (none, w) ∨ (w = true ∧ packText w (lineText line) = (some [32], false)) ∨
      (RecordOk (lineText line) ∧ packText w (lineText line) = (some (lineText line), true)) := by
  unfold packText
  by_cases hc : (lineText line).take 2 = [47, 47]
  · rw [if_pos hc]
    exact Or.inl rfl
  · rw [if_neg hc]
    by_cases he : lineText line = []
    · rw [if_pos he]
      cases w with
      | true => exact Or.inr (Or.inl ⟨rfl, rfl⟩)
      | false => exact Or.inl rfl
    · rw [if_neg he]
      exact Or.inr (Or.inr ⟨⟨lineText_nulFree line, he, lineText_first line⟩, rfl⟩)

/-- A separator comes only behind a text. -/
theorem packTexts_apart (lines : List (List Byte)) : ∀ w,
    (∀ r ∈ packTexts w (lines.map lineText), r = [32] ∨ RecordOk r) ∧
    (w = false → (packTexts w (lines.map lineText)).head? ≠ some [32]) ∧
    (packTexts w (lines.map lineText)).IsChain fun a b => a = [32] → b ≠ [32] := by
  induction lines with
  | nil => exact fun w => ⟨by simp [packTexts], by simp [packTexts], by simp [packTexts]⟩
  | cons line lines ih =>
    intro w
    rw [List.map_cons, packTexts]
    cases packText_cases w line with
    | inl hnone =>
      rw [hnone]
      exact ih w
    | inr hsome =>
      cases hsome with
      | inl hsep =>
        obtain ⟨hw, hp⟩ := hsep
        obtain ⟨hrec, hfirst, hapart⟩ := ih false
        rw [hp, Option.toList_some, List.singleton_append]
        refine ⟨?_, fun h => by simp [h] at hw, List.isChain_cons.mpr ⟨fun b hb _ he => ?_, hapart⟩⟩
        · intro r hr
          cases List.mem_cons.mp hr with
          | inl he => exact Or.inl he
          | inr hm => exact hrec r hm
        · rw [he] at hb
          exact hfirst rfl hb
      | inr htext =>
        obtain ⟨hok, hp⟩ := htext
        obtain ⟨hrec, _, hapart⟩ := ih true
        rw [hp, Option.toList_some, List.singleton_append]
        refine ⟨?_, ?_, List.isChain_cons.mpr ⟨fun b _ he => absurd he hok.ne_separator, hapart⟩⟩
        · intro r hr
          cases List.mem_cons.mp hr with
          | inl he => exact Or.inr (by rw [he]; exact hok)
          | inr hm => exact hrec r hm
        · intro _ he
          simp only [List.head?_cons, Option.some.injEq] at he
          exact hok.ne_separator he

theorem recordsOf_wellFormed (text : List Byte) : WellFormed (recordsOf false text) := by
  obtain ⟨hrec, hfirst, hapart⟩ := packTexts_apart (pieces [] text) false
  exact ⟨hrec, hfirst rfl, hapart⟩

/-- The buffer of the loop is as long as its size says, and the next record is written
inside it. -/
structure InBounds (s : Load) : Prop where
  size : 0 < s.maxsize ∧ s.maxsize < 2 ^ 31
  head : s.head.length = s.maxsize.toNat
  wherenow : s.wherenow < s.head.length

theorem Packed.inBounds {recs : List (List Byte)} {s : Load} (h : Packed recs s) : InBounds s := by
  have hmax := h.maxsize
  have hsmall := h.small
  have hroom := h.room
  have hlen : s.head.length = s.maxsize.toNat := by
    rw [h.head, List.length_append, List.length_replicate, ← h.wherenow]
    omega
  simp only [packLimit] at hsmall
  exact ⟨by omega, hlen, by omega⟩

/-- Packed so far, with room for what the rest of the stream makes. -/
def Packing (s : Load) : Prop :=
  s.fg.fails = false ∧ ∃ recs, Packed recs s ∧
    (encode (recs ++ packTexts s.iswrite ((pieces [] s.fg.rest).map lineText))).length < packLimit

theorem Packing.step {malloc : Nat → Bool} (hm : MallocSmall malloc) {s t : Load} (h : Packing s)
    (hb : loadBody malloc s = .again t) : Packing t := by
  obtain ⟨hf, recs, hp, hsize⟩ := h
  cases hps : pieces [] s.fg.rest with
  | nil =>
    have hend := loadBody_end malloc (pieces_end hps).1 hf
    rw [hb] at hend
    cases hend
  | cons p ps =>
    rw [hps, List.map_cons, packTexts, ← List.append_assoc] at hsize
    have hmono := encode_mono (recs ++ (packText s.iswrite (lineText p)).1.toList)
      (packTexts (packText s.iswrite (lineText p)).2 (ps.map lineText))
    have hg : Grants malloc (encode recs).length := grants_of_small hm (by
      have h := encode_mono recs (packText s.iswrite (lineText p)).1.toList
      omega)
    cases piece_step hps hp hg fun hl => absurd hl (by omega) with
    | inl hstep =>
      obtain ⟨_, s', hs', hp', hw', hf', _, hps', _⟩ := hstep
      rw [hb] at hs'
      cases hs'
      exact ⟨hf'.trans hf, _, hp', by rw [hw', hps']; exact hsize⟩
    | inr hstop =>
      rw [hb] at hstop
      cases hstop.2

theorem Packing.last {malloc : Nat → Bool} (hm : MallocSmall malloc) {s : Load} {buf : List Byte} (h : Packing s)
    (hb : loadBody malloc s = .leave (some (some buf))) : buf = s.head := by
  obtain ⟨hf, recs, hp, hsize⟩ := h
  cases hps : pieces [] s.fg.rest with
  | nil =>
    have hend := loadBody_end malloc (pieces_end hps).1 hf
    rw [hb] at hend
    simp only [Pass.leave.injEq, Option.some.injEq] at hend
    split_ifs at hend
    exact Option.some.inj hend
  | cons p ps =>
    have hrecs := encode_mono recs (packTexts s.iswrite ((pieces [] s.fg.rest).map lineText))
    have hg : Grants malloc (encode recs).length := grants_of_small hm (by omega)
    rw [hps, List.map_cons, packTexts, ← List.append_assoc] at hsize
    have hmono := encode_mono (recs ++ (packText s.iswrite (lineText p)).1.toList)
      (packTexts (packText s.iswrite (lineText p)).2 (ps.map lineText))
    cases piece_step hps hp hg fun hl => absurd hl (by omega) with
    | inl hstep =>
      obtain ⟨_, s', hs', _⟩ := hstep
      rw [hb] at hs'
      cases hs'
    | inr hstop =>
      rw [hb] at hstop
      cases hstop.2

/-- No access of loadFile or readFile lies outside the packed buffer: every state of the loop
has its room, loadFile returns, and readFile returns on what loadFile returns. -/
theorem packed_in_bounds {malloc : Nat → Bool} (hm : MallocSmall malloc) (content : List Byte)
    (hsize : (encode (recordsOf false content)).length < 2 ^ 31 - 2048) :
    (∀ s, Goes (loadBody malloc) (loadStart ⟨content, false, false⟩) s → InBounds s) ∧
    ∃ r, LoadFile malloc (some ⟨content, false, false⟩) r ∧ ∀ buf, r = some buf →
      (∃ s, Goes (loadBody malloc) (loadStart ⟨content, false, false⟩) s ∧ buf.length = s.maxsize.toNat ∧
        loadBody malloc s = .leave (some (some buf))) ∧
      ∀ brk, ∃ q, ReadFile (some buf) true brk q ∧ (q.ret = 0 ∨ q.ret = -2) := by
  have hlimit : (encode (recordsOf false content)).length < packLimit := by
    simp only [packLimit]
    omega
  have hpacking : ∀ s, Goes (loadBody malloc) (loadStart ⟨content, false, false⟩) s → Packing s := by
    intro s hs
    exact hs.keep ⟨rfl, [], loadStart_packed _, hlimit⟩ fun a b ha hb => ha.step hm hb
  have hload := (loadFile_pieces malloc content fun hl => absurd hl (by omega)).1
    (grants_of_small hm hlimit)
  refine ⟨fun s hs => ?_, _, hload, fun buf hbuf => ⟨?_, fun brk => ?_⟩⟩
  · obtain ⟨_, recs, hp, _⟩ := hpacking s hs
    exact hp.inBounds
  · rw [hbuf, loadFile_start, if_pos (hm 1024 (by omega))] at hload
    obtain ⟨s, hs, hlast⟩ := hload.last
    refine ⟨s, hs, ?_, hlast⟩
    rw [(hpacking s hs).last hm hlast]
    obtain ⟨_, recs, hp, _⟩ := hpacking s hs
    exact hp.inBounds.head
  · obtain ⟨k, hk⟩ := loaded_zeros hbuf
    obtain ⟨q, hq, hres⟩ := (recordsOf_wellFormed content).read (List.replicate k 0) brk
    rw [← hk] at hq
    refine ⟨q, hq, ?_⟩
    cases hres with
    | inl hgood => exact Or.inl hgood.1
    | inr hbad => exact Or.inr hbad.1

/-- The file "s", "k:v". -/
theorem packed_in_bounds_short :
    (∀ s, Goes (loadBody fun _ => true) (loadStart ⟨[115, 10, 107, 58, 118, 10], false, false⟩) s → InBounds s) ∧
    ∃ r, LoadFile (fun _ => true) (some ⟨[115, 10, 107, 58, 118, 10], false, false⟩) r ∧ ∀ buf, r = some buf →
      (∃ s, Goes (loadBody fun _ => true) (loadStart ⟨[115, 10, 107, 58, 118, 10], false, false⟩) s ∧
        buf.length = s.maxsize.toNat ∧ loadBody (fun _ => true) s = .leave (some (some buf))) ∧
      ∀ brk, ∃ q, ReadFile (some buf) true brk q ∧ (q.ret = 0 ∨ q.ret = -2) :=
  packed_in_bounds (fun _ _ => rfl) [115, 10, 107, 58, 118, 10] (by decide)

end TimeTask
