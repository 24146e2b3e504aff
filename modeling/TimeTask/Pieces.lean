import TimeTask.LoadFile

/-! loadFile on any stream: the pieces that fgets makes of it, and what is packed of them. -/
namespace TimeTask
open Lib

/-- The pieces that fgets takes before the stream runs dry; `line` has been taken of the first. -/
def pieces : List Byte → List Byte → List (List Byte)
  | _, [] => []
  | line, b :: rest =>
    if b = 10 ∨ line.length + 1 = 1022 then (line ++ [b]) :: pieces [] rest else pieces (line ++ [b]) rest

/-- What fgets has taken when the stream runs dry. -/
def leftover : List Byte → List Byte → List Byte
  | line, [] => line
  | line, b :: rest =>
    if b = 10 ∨ line.length + 1 = 1022 then leftover [] rest else leftover (line ++ [b]) rest

theorem takeLine_dry (line : List Byte) {n : Nat} {rest p q : List Byte} (hn : line.length + n = 1022)
    (h : takeLine n rest = (p, q, true)) : p = rest ∧ q = [] ∧ pieces line rest = [] ∧
      leftover line rest = line ++ rest ∧ (line ++ rest).length < 1022 := by
  induction rest generalizing n line p with
  | nil =>
    cases n with
    | zero => simp [takeLine] at h
    | succ n =>
      simp only [takeLine, Prod.mk.injEq, and_true] at h
      refine ⟨h.1.symm, h.2.symm, rfl, by simp [leftover], by simp; omega⟩
  | cons b rest ih =>
    cases n with
    | zero => simp [takeLine] at h
    | succ n =>
      by_cases hb : b = 10
      · simp [takeLine, hb] at h
      · simp only [takeLine, hb, if_false, Prod.mk.injEq] at h
        have hi := ih (line ++ [b]) (n := n) (p := (takeLine n rest).1) (by simp; omega)
          (by rw [← h.2.1, ← h.2.2])
        have hlen := hi.2.2.2.2
        simp only [List.length_append, List.length_singleton] at hlen
        have hcut : ¬ (b = 10 ∨ line.length + 1 = 1022) := by
          intro hc
          cases hc with
          | inl hc => exact hb hc
          | inr hc => omega
        refine ⟨by rw [← h.1, hi.1], hi.2.1, ?_, ?_, ?_⟩
        · rw [pieces, if_neg hcut]
          exact hi.2.2.1
        · rw [leftover, if_neg hcut, hi.2.2.2.1]
          simp
        · simp
          omega

theorem takeLine_piece (line : List Byte) {n : Nat} {rest p q : List Byte} (hn : line.length + n = 1022)
    (h0 : 0 < n) (h : takeLine n rest = (p, q, false)) : rest = p ++ q ∧ p ≠ [] ∧
      pieces line rest = (line ++ p) :: pieces [] q ∧ leftover line rest = leftover [] q ∧
      (line ++ p).length ≤ 1022 := by
  induction rest generalizing n line p with
  | nil =>
    cases n with
    | zero => omega
    | succ n => simp [takeLine] at h
  | cons b rest ih =>
    cases n with
    | zero => omega
    | succ n =>
      by_cases hb : b = 10
      · simp only [takeLine, hb, if_true, Prod.mk.injEq, and_true] at h
        obtain ⟨hp, hq⟩ := h
        subst hp
        subst hq
        refine ⟨by simp [hb], by simp, by simp [pieces, hb], by simp [leftover, hb], by simp; omega⟩
      · simp only [takeLine, hb, if_false, Prod.mk.injEq] at h
        by_cases hz : n = 0
        · subst hz
          have hcut : b = 10 ∨ line.length + 1 = 1022 := Or.inr (by omega)
          have ht : takeLine 0 rest = ([], rest, false) := by cases rest <;> rfl
          rw [ht] at h
          obtain ⟨hp, hq, _⟩ := h
          subst hp
          subst hq
          refine ⟨by simp, by simp, ?_, ?_, by simp; omega⟩
          · rw [pieces, if_pos hcut]
          · rw [leftover, if_pos hcut]
        · have hi := ih (line ++ [b]) (n := n) (p := (takeLine n rest).1) (by simp; omega) (by omega)
            (by rw [← h.2.1, ← h.2.2])
          obtain ⟨hr, _, hps, hlo, hle⟩ := hi
          have hcut : ¬ (b = 10 ∨ line.length + 1 = 1022) := by
            intro hc
            cases hc with
            | inl hc => exact hb hc
            | inr hc => omega
          rw [← h.1]
          refine ⟨?_, by simp, ?_, ?_, ?_⟩
          · rw [List.cons_append, ← hr]
          · rw [pieces, if_neg hcut, hps]
            simp
          · rw [leftover, if_neg hcut, hlo]
          · simpa using hle

/-- Blocks for `size` packed bytes are below the limit and malloc has all of them. -/
structure Grants (malloc : Nat → Bool) (size : Nat) : Prop where
  small : size < packLimit
  block : ∀ n ≤ size, malloc (blockSize n) = true

theorem Grants.mono {malloc : Nat → Bool} {k n : Nat} (h : Grants malloc n) (hk : k ≤ n) : Grants malloc k :=
  ⟨by have := h.small; omega, fun j hj => h.block j (by omega)⟩

theorem grants_of_small {malloc : Nat → Bool} (hm : MallocSmall malloc) {size : Nat} (h : size < packLimit) :
    Grants malloc size := by
  refine ⟨h, fun n hn => hm _ ?_⟩
  simp only [packLimit] at h
  rw [blockSize]
  omega

theorem Grants.snoc {malloc : Nat → Bool} {recs : List (List Byte)} {tem : List Byte}
    (h : Grants malloc (encode recs).length) (ht : tem.length ≤ 1022)
    (hs : (encode (recs ++ [tem])).length < packLimit)
    (hm : malloc (blockSize (encode (recs ++ [tem])).length) = true) :
    Grants malloc (encode (recs ++ [tem])).length := by
  refine ⟨hs, fun n hn => ?_⟩
  have hlen := encode_snoc_length recs tem
  by_cases hle : n ≤ (encode recs).length
  · exact h.block n hle
  · by_cases hold : blockSize n = blockSize (encode recs).length
    · rw [hold]
      exact h.block _ (Nat.le_refl _)
    · have hnew : blockSize n = blockSize (encode (recs ++ [tem])).length := by
        simp only [blockSize] at hold ⊢
        omega
      rw [hnew]
      exact hm

/-- The pass that stores a record, or gives up. -/
theorem store_step {malloc : Nat → Bool} {recs : List (List Byte)} {tem : List Byte} {s : Load}
    (hp : Packed recs s) (hg : Grants malloc (encode recs).length) (ht : tem.length ≤ 1022)
    (hh : packLimit ≤ (encode (recs ++ [tem])).length → MallocHuge malloc) :
    (Grants malloc (encode (recs ++ [tem])).length ∧ ∃ s', storeRecord malloc tem s = .again s' ∧
      Packed (recs ++ [tem]) s' ∧ s'.fg = s.fg ∧ s'.iswrite = s.iswrite) ∨
    (¬ Grants malloc (encode (recs ++ [tem])).length ∧ storeRecord malloc tem s = .leave (some none)) := by
  by_cases hs : (encode (recs ++ [tem])).length < packLimit
  · cases hm : malloc (blockSize (encode (recs ++ [tem])).length) with
    | true => exact Or.inl ⟨hg.snoc ht hs hm, storeRecord_spec hp ht hs hm⟩
    | false =>
      refine Or.inr ⟨fun h => ?_, storeRecord_refused hp ht hs (hg.block _ (Nat.le_refl _)) hm⟩
      rw [h.block _ (Nat.le_refl _)] at hm
      cases hm
  · refine Or.inr ⟨fun h => hs h.small, ?_⟩
    exact storeRecord_limit (hh (by omega)) hp ht (by omega)

/-- The value of iswrite behind the lines `ts`. -/
def openAfter : Bool → List (List Byte) → Bool
  | w, [] => w
  | w, t :: ts => openAfter (packText w t).2 ts

theorem packTexts_append (w : Bool) (ts us : List (List Byte)) :
    packTexts w (ts ++ us) = packTexts w ts ++ packTexts (openAfter w ts) us := by
  induction ts generalizing w with
  | nil => rfl
  | cons t ts ih => simp [packTexts, openAfter, ih]

def recordsOf (w : Bool) (text : List Byte) : List (List Byte) := packTexts w ((pieces [] text).map lineText)

/-- The pass over what fgets takes: its record is packed, or loadFile gives up for want of a block. -/
theorem line_step {malloc : Nat → Bool} {recs : List (List Byte)} {s : Load} {line rest : List Byte}
    {dry : Bool} (ht : takeLine 1022 s.fg.rest = (line, rest, dry)) (he : (dry && !s.fg.fails) = false)
    (hlen : line.length ≤ 1022) (hp : Packed recs s) (hg : Grants malloc (encode recs).length)
    (hh : packLimit ≤ (encode (recs ++ (packText s.iswrite (lineText line)).1.toList)).length →
      MallocHuge malloc) :
    (Grants malloc (encode (recs ++ (packText s.iswrite (lineText line)).1.toList)).length ∧
      ∃ s', loadBody malloc s = .again s' ∧
        Packed (recs ++ (packText s.iswrite (lineText line)).1.toList) s' ∧
        s'.iswrite = (packText s.iswrite (lineText line)).2 ∧ s'.fg = ⟨rest, s.fg.fails, false⟩) ∨
    (¬ Grants malloc (encode (recs ++ (packText s.iswrite (lineText line)).1.toList)).length ∧
      loadBody malloc s = .leave (some none)) := by
  have hbody := loadBody_piece malloc ht he hlen
  have hp' : ∀ w, Packed recs { s with fg := ⟨rest, s.fg.fails, false⟩, iswrite := w } :=
    fun w => ⟨hp.wherenow, hp.maxsize, hp.head, hp.small⟩
  cases hpk : packText s.iswrite (lineText line) with
  | mk tem iswrite =>
    rw [hpk] at hbody hh
    cases tem with
    | none =>
      simp only [Option.toList_none, List.append_nil]
      exact Or.inl ⟨hg, _, hbody, hp' iswrite, rfl, rfl⟩
    | some tem =>
      simp only [Option.toList_some] at hh ⊢
      have htem : tem.length ≤ 1022 := by
        have h₁ := packText_length (t := lineText line) (by rw [hpk])
        have h₂ := lineText_length line
        omega
      cases store_step (hp' iswrite) hg htem hh with
      | inl hst =>
        obtain ⟨hg₁, s₁, hs₁, hp₁, hf₁, hw₁⟩ := hst
        exact Or.inl ⟨hg₁, s₁, hbody.trans hs₁, hp₁, hw₁, hf₁⟩
      | inr hst => exact Or.inr ⟨hst.1, hbody.trans hst.2⟩

theorem piece_step {malloc : Nat → Bool} {recs : List (List Byte)} {s : Load} {p : List Byte}
    {ps : List (List Byte)} (hps : pieces [] s.fg.rest = p :: ps) (hp : Packed recs s)
    (hg : Grants malloc (encode recs).length)
    (hh : packLimit ≤ (encode (recs ++ (packText s.iswrite (lineText p)).1.toList)).length →
      MallocHuge malloc) :
    (Grants malloc (encode (recs ++ (packText s.iswrite (lineText p)).1.toList)).length ∧
      ∃ s', loadBody malloc s = .again s' ∧ Packed (recs ++ (packText s.iswrite (lineText p)).1.toList) s' ∧
        s'.iswrite = (packText s.iswrite (lineText p)).2 ∧ s'.fg.fails = s.fg.fails ∧ s'.fg.eof = false ∧
        pieces [] s'.fg.rest = ps ∧ leftover [] s'.fg.rest = leftover [] s.fg.rest) ∨
    (¬ Grants malloc (encode (recs ++ (packText s.iswrite (lineText p)).1.toList)).length ∧
      loadBody malloc s = .leave (some none)) := by
  cases ht : takeLine 1022 s.fg.rest with
  | mk line q =>
    cases q with
    | mk rest dry =>
      cases dry with
      | true =>
        have hdry := (takeLine_dry [] rfl ht).2.2.1
        rw [hps] at hdry
        cases hdry
      | false =>
        obtain ⟨_, _, hpiece, hlo, hlen⟩ := takeLine_piece [] rfl (by omega) ht
        simp only [List.nil_append] at hpiece hlen
        rw [hps] at hpiece
        obtain ⟨hpl, hrest⟩ := List.cons.inj hpiece
        subst hpl
        cases line_step ht rfl hlen hp hg hh with
        | inl hst =>
          obtain ⟨hg₁, s₁, hs₁, hp₁, hw₁, hf₁⟩ := hst
          refine Or.inl ⟨hg₁, s₁, hs₁, hp₁, hw₁, ?_⟩
          rw [hf₁]
          exact ⟨rfl, rfl, hrest.symm, hlo.symm⟩
        | inr hst => exact Or.inr hst

theorem pieces_end {rest : List Byte} (h : pieces [] rest = []) :
    takeLine 1022 rest = (leftover [] rest, [], true) ∧ (leftover [] rest).length < 1022 := by
  cases ht : takeLine 1022 rest with
  | mk line q =>
    cases q with
    | mk tail dry =>
      cases dry with
      | false =>
        have hpiece := (takeLine_piece [] rfl (by omega) ht).2.2.1
        rw [h] at hpiece
        cases hpiece
      | true =>
        obtain ⟨hl, hr, _, hlo, hlen⟩ := takeLine_dry [] rfl ht
        rw [List.nil_append] at hlo hlen
        rw [hl, hr, hlo]
        exact ⟨rfl, hlen⟩

/-- The loop reads the pieces and packs their records, as long as malloc has the blocks. -/
theorem pieces_run (malloc : Nat → Bool) (ps : List (List Byte)) : ∀ (recs : List (List Byte)) (s : Load),
    pieces [] s.fg.rest = ps → s.fg.eof = false → Packed recs s → Grants malloc (encode recs).length →
    (packLimit ≤ (encode (recs ++ packTexts s.iswrite (ps.map lineText))).length → MallocHuge malloc) →
    (Grants malloc (encode (recs ++ packTexts s.iswrite (ps.map lineText))).length ∧
      ∃ s', Goes (loadBody malloc) s s' ∧ Packed (recs ++ packTexts s.iswrite (ps.map lineText)) s' ∧
        s'.iswrite = openAfter s.iswrite (ps.map lineText) ∧ s'.fg.fails = s.fg.fails ∧ s'.fg.eof = false ∧
        pieces [] s'.fg.rest = [] ∧ leftover [] s'.fg.rest = leftover [] s.fg.rest) ∨
    (¬ Grants malloc (encode (recs ++ packTexts s.iswrite (ps.map lineText))).length ∧
      Leaves (loadBody malloc) s (some none)) := by
  induction ps with
  | nil =>
    intro recs s hps heof hp hg _
    simp only [List.map_nil, packTexts, List.append_nil]
    exact Or.inl ⟨hg, s, Goes.refl s, hp, rfl, rfl, heof, hps, rfl⟩
  | cons p ps ih =>
    intro recs s hps heof hp hg hh
    have hmono := encode_mono (recs ++ (packText s.iswrite (lineText p)).1.toList)
      (packTexts (packText s.iswrite (lineText p)).2 (ps.map lineText))
    simp only [List.map_cons, packTexts, openAfter, ← List.append_assoc] at hh ⊢
    cases piece_step hps hp hg fun hl => hh (by omega) with
    | inr hst => exact Or.inr ⟨fun hgr => hst.1 (hgr.mono hmono), Leaves.now hst.2⟩
    | inl hst =>
      obtain ⟨hg₁, s₁, hs₁, hp₁, hw₁, hf₁, he₁, hps₁, hlo₁⟩ := hst
      have hi := ih _ s₁ hps₁ he₁ hp₁ hg₁
      rw [hw₁, hf₁, hlo₁] at hi
      cases hi hh with
      | inl hi =>
        obtain ⟨hgr, s', hgo, hrun⟩ := hi
        exact Or.inl ⟨hgr, s', (Goes.one hs₁).trans hgo, hrun⟩
      | inr hi => exact Or.inr ⟨hi.1, Leaves.step hs₁ hi.2⟩

def loadStart (fg : Stream) : Load := ⟨fg, false, 1024, 0, List.replicate 1024 0⟩

theorem loadStart_packed (fg : Stream) : Packed [] (loadStart fg) :=
  ⟨rfl, by simp only [loadStart]; omega, rfl, by simp only [packLimit, loadStart]; omega⟩

theorem grants_zero {malloc : Nat → Bool} (h : malloc 1024 = true) : Grants malloc 0 := by
  refine ⟨by simp only [packLimit]; omega, fun n hn => ?_⟩
  rw [Nat.le_zero.mp hn]
  exact h

theorem loadFile_start (malloc : Nat → Bool) (fg : Stream) (r : Option (List Byte)) :
    LoadFile malloc (some fg) r ↔
      if malloc 1024 = true then Leaves (loadBody malloc) (loadStart fg) (some r) else r = none := by
  cases hm : malloc 1024 with
  | true =>
    simp only [LoadFile, loadInit, hm, if_true]
    rfl
  | false =>
    simp only [LoadFile, loadInit, hm, Bool.false_eq_true, if_false, Option.some.injEq]
    exact eq_comm

theorem Packed.loaded {recs : List (List Byte)} {s : Load} (hp : Packed recs s) :
    (if s.wherenow = 0 then none else some s.head) = TimeTask.loaded recs := by
  have hmax := hp.maxsize
  have hs := hp.small
  have hw := hp.wherenow
  have hsize : s.maxsize.toNat - s.wherenow =
      1024 * ((encode recs).length / 1024 + 1) - (encode recs).length := by
    omega
  by_cases h0 : s.wherenow = 0
  · simp [TimeTask.loaded, ← hw, h0]
  · have hl : ¬ packLimit ≤ s.wherenow := by omega
    rw [hw] at hl h0
    simp [TimeTask.loaded, hw, h0, hl, hp.head, ← hsize]

theorem loaded_zeros {recs : List (List Byte)} {buf : List Byte} (h : loaded recs = some buf) :
    ∃ k, buf = encode recs ++ 0 :: List.replicate k 0 := by
  simp only [loaded] at h
  split_ifs at h
  refine ⟨1024 * ((encode recs).length / 1024 + 1) - (encode recs).length - 1, ?_⟩
  rw [← List.replicate_succ, ← Option.some.inj h]
  congr 2
  omega

/-- loadFile on a stream that ends: the packed records of its pieces, or NULL. -/
theorem loadFile_pieces (malloc : Nat → Bool) (text : List Byte)
    (hh : packLimit ≤ (encode (recordsOf false text)).length → MallocHuge malloc) :
    (Grants malloc (encode (recordsOf false text)).length →
      LoadFile malloc (some ⟨text, false, false⟩) (loaded (recordsOf false text))) ∧
    (¬ Grants malloc (encode (recordsOf false text)).length →
      LoadFile malloc (some ⟨text, false, false⟩) none) := by
  have hstart := loadFile_start malloc ⟨text, false, false⟩
  cases hm : malloc 1024 with
  | false =>
    simp only [hm, Bool.false_eq_true, if_false] at hstart
    refine ⟨fun hg => ?_, fun _ => (hstart none).mpr rfl⟩
    have h0 := hg.block 0 (Nat.zero_le _)
    rw [show blockSize 0 = 1024 from rfl, hm] at h0
    cases h0
  | true =>
    simp only [hm, if_true] at hstart
    have hrun := pieces_run malloc (pieces [] text) [] (loadStart ⟨text, false, false⟩) rfl rfl
      (loadStart_packed _) (grants_zero hm) hh
    simp only [List.nil_append] at hrun
    cases hrun with
    | inl hrun =>
      obtain ⟨hg, s', hgo, hp, _, hf, _, hps, _⟩ := hrun
      refine ⟨fun _ => (hstart _).mpr ?_, fun hn => absurd hg hn⟩
      have hend := loadBody_end malloc (pieces_end hps).1 hf
      rw [hp.loaded] at hend
      exact Leaves.of_goes hgo (Leaves.now hend)
    | inr hrun => exact ⟨fun hg => absurd hg hrun.1, fun _ => (hstart _).mpr hrun.2⟩

theorem not_cut (line : List Byte) {b : Byte} (hb : b ≠ 10) (hlen : line.length < 1021) :
    ¬ (b = 10 ∨ line.length + 1 = 1022) := by
  intro hc
  cases hc with
  | inl hc => exact hb hc
  | inr hc => omega

theorem pieces_take (line rest text : List Byte) (hl : 10 ∉ rest) (hlen : line.length + rest.length ≤ 1021) :
    pieces line (rest ++ text) = pieces (line ++ rest) text ∧
      leftover line (rest ++ text) = leftover (line ++ rest) text := by
  induction rest generalizing line with
  | nil => simp
  | cons b rest ih =>
    rw [List.length_cons] at hlen
    have hb : b ≠ 10 := fun he => hl (by simp [he])
    have hcut := not_cut line hb (by omega)
    have hi := ih (line ++ [b]) (fun hm => hl (List.mem_cons_of_mem b hm)) (by simp; omega)
    rw [List.cons_append, pieces, leftover, if_neg hcut, if_neg hcut, hi.1, hi.2, List.append_assoc]
    exact ⟨rfl, rfl⟩

theorem pieces_line (line rest text : List Byte) (hl : 10 ∉ rest) (hlen : line.length + rest.length ≤ 1021) :
    pieces line (rest ++ 10 :: text) = (line ++ rest ++ [10]) :: pieces [] text ∧
      leftover line (rest ++ 10 :: text) = leftover [] text := by
  have htake := pieces_take line rest (10 :: text) hl hlen
  rw [htake.1, htake.2, pieces, leftover]
  exact ⟨if_pos (Or.inl rfl), if_pos (Or.inl rfl)⟩

theorem pieces_last (line rest : List Byte) (hl : 10 ∉ rest) (hlen : line.length + rest.length ≤ 1021) :
    pieces line rest = [] ∧ leftover line rest = line ++ rest := by
  have htake := pieces_take line rest [] hl hlen
  rw [List.append_nil, pieces, leftover] at htake
  exact htake

theorem pieces_lines {lines : List (List Byte)} (h : FitLines lines) (text : List Byte) :
    pieces [] (fileOf lines ++ text) = (lines.map fun l => l ++ [10]) ++ pieces [] text ∧
      leftover [] (fileOf lines ++ text) = leftover [] text := by
  induction lines with
  | nil => exact ⟨rfl, rfl⟩
  | cons line lines ih =>
    obtain ⟨hlen, hlf⟩ := h line (by simp)
    have hi := ih fun l hl => h l (List.mem_cons_of_mem line hl)
    have hfile : fileOf (line :: lines) ++ text = line ++ 10 :: (fileOf lines ++ text) := by simp [fileOf]
    have hline := pieces_line [] line (fileOf lines ++ text) hlf (by simpa using hlen)
    rw [hfile, hline.1, hline.2, hi.1, hi.2]
    simp

theorem map_lineText_lf (lines : List (List Byte)) :
    (lines.map fun l => l ++ [10]).map lineText = lines.map lineText := by
  rw [List.map_map]
  exact List.map_congr_left fun l _ => lineText_lf l

theorem recordsOf_lines {lines : List (List Byte)} (h : FitLines lines) (w : Bool) :
    recordsOf w (fileOf lines) = packTexts w (lines.map lineText) := by
  have hp := (pieces_lines h []).1
  rw [List.append_nil, pieces, List.append_nil] at hp
  rw [recordsOf, hp, map_lineText_lf]

theorem loadFile_lines {malloc : Nat → Bool} (hsmall : MallocSmall malloc)
    (lines : List (List Byte)) (hfit : FitLines lines)
    (hhuge : packLimit ≤ (encode (packTexts false (lines.map lineText))).length → MallocHuge malloc) :
    LoadFile malloc (some ⟨fileOf lines, false, false⟩)
      (loaded (packTexts false (lines.map lineText))) := by
  have hrecs := recordsOf_lines hfit false
  rw [← hrecs] at hhuge ⊢
  obtain ⟨hgood, hbad⟩ := loadFile_pieces malloc (fileOf lines) hhuge
  by_cases hs : (encode (recordsOf false (fileOf lines))).length < packLimit
  · exact hgood (grants_of_small hsmall hs)
  · have hnone : loaded (recordsOf false (fileOf lines)) = none := by
      simp only [loaded]
      rw [if_pos (Or.inr (by omega))]
    rw [hnone]
    exact hbad fun hg => hs hg.small

end TimeTask
