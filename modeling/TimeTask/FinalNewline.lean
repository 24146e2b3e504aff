import TimeTask.PackBounds
import TimeTask.ReadError

/-! A file with and without a line feed behind its last line. -/
namespace TimeTask
open Lib

/-- The buffer holds the records `recs` and ends with a further NUL. -/
def Holds (buf : List Byte) (recs : List (List Byte)) : Prop :=
  (∀ r ∈ recs, NulFree r ∧ r ≠ []) ∧ ∃ z, buf = encode recs ++ 0 :: z

/-- Both pointers are NULL, or both buffers hold the same records. -/
def SameRecords : Option (List Byte) → Option (List Byte) → Prop
  | none, none => True
  | some a, some b => ∃ recs, Holds a recs ∧ Holds b recs
  | _, _ => False

/-- loadFile gives the same result on the contents `f` and `g`. -/
def SameLoad (malloc : Nat → Bool) (f g : List Byte) : Prop :=
  ∃ r q, LoadFile malloc (some ⟨f, false, false⟩) r ∧ LoadFile malloc (some ⟨g, false, false⟩) q ∧
    SameRecords r q

theorem encode_inj {recs more : List (List Byte)} {y z : List Byte} (hr : ∀ r ∈ recs, NulFree r ∧ r ≠ [])
    (hm : ∀ r ∈ more, NulFree r ∧ r ≠ []) (h : encode recs ++ 0 :: y = encode more ++ 0 :: z) :
    recs = more := by
  induction recs generalizing more with
  | nil =>
    cases more with
    | nil => rfl
    | cons m more =>
      obtain ⟨hnul, hne⟩ := hm m (by simp)
      obtain ⟨b, m, rfl⟩ := List.exists_cons_of_ne_nil hne
      simp [encode] at h
      exact absurd h.1.symm (hnul b (by simp))
  | cons r recs ih =>
    obtain ⟨hnul, hne⟩ := hr r (by simp)
    cases more with
    | nil =>
      obtain ⟨b, r, rfl⟩ := List.exists_cons_of_ne_nil hne
      simp [encode] at h
      exact absurd h.1 (hnul b (by simp))
    | cons m more =>
      rw [encode_cons, encode_cons, List.append_assoc, List.append_assoc, List.cons_append,
        List.cons_append] at h
      have hlen : r.length = m.length := by
        have hs := congrArg strlen h
        rw [strlen_eq r _ hnul, strlen_eq m _ (hm m (by simp)).1] at hs
        exact Option.some.inj hs
      obtain ⟨hrm, htail⟩ := List.append_inj h hlen
      rw [hrm, ih (fun x hx => hr x (List.mem_cons_of_mem r hx)) (fun x hx => hm x (List.mem_cons_of_mem m hx))
        (List.cons.inj htail).2]

theorem Holds.unique {buf : List Byte} {recs more : List (List Byte)} (hr : Holds buf recs)
    (hm : Holds buf more) : recs = more := by
  obtain ⟨y, hy⟩ := hr.2
  obtain ⟨z, hz⟩ := hm.2
  exact encode_inj hr.1 hm.1 (hy.symm.trans hz)

theorem loaded_holds {text buf : List Byte} (h : loaded (recordsOf false text) = some buf) :
    Holds buf (recordsOf false text) := by
  obtain ⟨k, hk⟩ := loaded_zeros h
  refine ⟨fun r hr => ?_, _, hk⟩
  cases (recordsOf_wellFormed text).record r hr with
  | inl hsep =>
    subst hsep
    exact ⟨by decide, by decide⟩
  | inr hok => exact ⟨hok.nulFree, hok.ne⟩

theorem pieces_newline (line f : List Byte) (h : line.length < 1022) :
    pieces line (f ++ [10]) = pieces line f ++ [leftover line f ++ [10]] := by
  induction f generalizing line with
  | nil => simp [pieces, leftover]
  | cons b f ih =>
    by_cases hcut : b = 10 ∨ line.length + 1 = 1022
    · rw [List.cons_append, pieces, pieces, leftover, if_pos hcut, if_pos hcut, if_pos hcut, ih [] (by simp)]
      simp
    · rw [List.cons_append, pieces, pieces, leftover, if_neg hcut, if_neg hcut, if_neg hcut]
      exact ih _ (by simp; omega)

theorem recordsOf_newline (f : List Byte) : recordsOf false (f ++ [10]) = recordsOf false f ++
    (packText (openAfter false ((pieces [] f).map lineText)) (lineText (leftover [] f))).1.toList := by
  rw [recordsOf, pieces_newline [] f (by simp), List.map_append, packTexts_append, recordsOf]
  simp [packTexts, lineText_lf]

theorem sameRecords_refl {text : List Byte} : SameRecords (loaded (recordsOf false text)) (loaded (recordsOf false text)) := by
  cases hl : loaded (recordsOf false text) with
  | none => trivial
  | some buf => exact ⟨_, loaded_holds hl, loaded_holds hl⟩

theorem not_sameRecords {f g r : List Byte} (hrec : recordsOf false g = recordsOf false f ++ [r])
    (hg : (encode (recordsOf false g)).length < packLimit) :
    ¬ SameRecords (loaded (recordsOf false f)) (loaded (recordsOf false g)) := by
  have hpos : (encode (recordsOf false g)).length ≠ 0 := by
    rw [hrec, encode_snoc_length]
    omega
  have hsome : ∃ buf, loaded (recordsOf false g) = some buf :=
    ⟨_, if_neg fun h => h.elim hpos fun hl => absurd hg (by omega)⟩
  obtain ⟨b, hb⟩ := hsome
  rw [hb]
  cases ha : loaded (recordsOf false f) with
  | none => exact fun h => h
  | some a =>
    intro h
    obtain ⟨recs, hra, hrb⟩ := h
    have heq := ((loaded_holds ha).unique hra).trans ((loaded_holds hb).unique hrb).symm
    have hlen := congrArg List.length (heq.trans hrec)
    simp at hlen

theorem leftover_length (line f : List Byte) (h : line.length < 1022) : (leftover line f).length < 1022 := by
  induction f generalizing line with
  | nil => exact h
  | cons b f ih =>
    rw [leftover]
    by_cases hcut : b = 10 ∨ line.length + 1 = 1022
    · rw [if_pos hcut]
      exact ih [] (by simp)
    · rw [if_neg hcut]
      exact ih _ (by simp; omega)

theorem loaded_nil {recs : List (List Byte)} (hn : loaded recs = none) (hs : (encode recs).length < packLimit) :
    recs = [] := by
  cases recs with
  | nil => rfl
  | cons r recs =>
    have hlen := congrArg List.length (encode_cons r recs)
    rw [List.length_append, List.length_cons] at hlen
    rw [loaded, if_neg (by omega)] at hn
    cases hn

theorem first_record {malloc : Nat → Bool} {recs : List (List Byte)} {r : List Byte}
    (hg : Grants malloc (encode recs).length) (hn : loaded recs = none) (hr : r.length ≤ 1021) :
    Grants malloc (encode (recs ++ [r])).length := by
  have hnil := loaded_nil hn hg.small
  subst hnil
  have hlen := encode_snoc_length [] r
  rw [show (encode []).length = 0 from rfl] at hg hlen
  refine ⟨by simp only [packLimit]; omega, fun n hn => ?_⟩
  have hsame : blockSize n = blockSize 0 := by
    simp only [blockSize]
    omega
  rw [hsame]
  exact hg.block 0 (Nat.le_refl 0)

/-- A line feed at the end makes no difference exactly when the bytes behind the last piece
add no record, or malloc refuses a block before. -/
theorem same_newline {malloc : Nat → Bool} (hh : MallocHuge malloc) (f : List Byte) :
    SameLoad malloc f (f ++ [10]) ↔
      (packText (openAfter false ((pieces [] f).map lineText)) (lineText (leftover [] f))).1 = none ∨
        ¬ Grants malloc (encode (recordsOf false f)).length := by
  obtain ⟨hgoodf, hbadf⟩ := loadFile_pieces malloc f fun _ => hh
  obtain ⟨hgoodg, hbadg⟩ := loadFile_pieces malloc (f ++ [10]) fun _ => hh
  have hrec := recordsOf_newline f
  cases htem : (packText (openAfter false ((pieces [] f).map lineText)) (lineText (leftover [] f))).1 with
  | none =>
    rw [htem, Option.toList_none, List.append_nil] at hrec
    refine iff_of_true ?_ (Or.inl rfl)
    rw [hrec] at hgoodg hbadg
    by_cases hg : Grants malloc (encode (recordsOf false f)).length
    · exact ⟨_, _, hgoodf hg, hgoodg hg, sameRecords_refl⟩
    · exact ⟨_, _, hbadf hg, hbadg hg, trivial⟩
  | some r =>
    rw [htem, Option.toList_some] at hrec
    simp only [reduceCtorEq, false_or]
    constructor
    · intro hsame hg
      obtain ⟨a, b, ha, hb, hab⟩ := hsame
      have hra := ha.unique (hgoodf hg)
      by_cases hg' : Grants malloc (encode (recordsOf false (f ++ [10]))).length
      · rw [hra, hb.unique (hgoodg hg')] at hab
        exact not_sameRecords hrec hg'.small hab
      · rw [hra, hb.unique (hbadg hg')] at hab
        have hn : loaded (recordsOf false f) = none := by
          cases hl : loaded (recordsOf false f) with
          | none => rfl
          | some buf =>
            rw [hl] at hab
            exact absurd hab id
        have hr₁ := packText_length htem
        have hr₂ := lineText_length (leftover [] f)
        have hr₃ := leftover_length [] f (by simp)
        rw [hrec] at hg'
        exact hg' (first_record hg hn (by omega))
    · intro hg
      refine ⟨_, _, hbadf hg, hbadg fun hg' => hg (hg'.mono ?_), trivial⟩
      rw [hrec]
      exact encode_mono _ _

/-- After trimming the line is a comment. -/
def CommentLine (line : List Byte) : Prop := (lineText line).take 2 = [47, 47]

/-- After trimming nothing of the line is left. -/
def BlankLine (line : List Byte) : Prop := lineText line = []

theorem packText_none (w : Bool) (line : List Byte) :
    (packText w (lineText line)).1 = none ↔ CommentLine line ∨ (BlankLine line ∧ w = false) := by
  unfold packText CommentLine BlankLine
  by_cases hc : (lineText line).take 2 = [47, 47]
  · simp [hc]
  · rw [if_neg hc]
    by_cases hb : lineText line = []
    · cases w <;> simp [hb]
    · simp [hc, hb]

/-- The final line feed of a file makes no difference exactly when the last line is a comment,
or blank with no text since the last blank line, or malloc refuses a block for the lines before. -/
theorem loadFile_newline {malloc : Nat → Bool} (hh : MallocHuge malloc) (lines : List (List Byte))
    (last : List Byte) (hfit : FitLines lines) (hlf : 10 ∉ last) (hlen : last.length ≤ 1021) :
    SameLoad malloc (fileOf lines ++ last) (fileOf lines ++ last ++ [10]) ↔
      CommentLine last ∨ (BlankLine last ∧ openAfter false (lines.map lineText) = false) ∨
        ¬ Grants malloc (encode (packTexts false (lines.map lineText))).length := by
  obtain ⟨hps, hlo⟩ := pieces_lines hfit last
  obtain ⟨hnil, hlast⟩ := pieces_last [] last hlf (by simpa using hlen)
  rw [hnil, List.append_nil] at hps
  rw [hlast, List.nil_append] at hlo
  rw [same_newline hh, packText_none, recordsOf, hps, hlo, map_lineText_lf, or_assoc]

/-- The file "s" and "k:v" without a line feed at the end. -/
theorem loadFile_newline_short :
    SameLoad smallBlocks (fileOf [[115]] ++ [107, 58, 118]) (fileOf [[115]] ++ [107, 58, 118] ++ [10]) ↔
      CommentLine [107, 58, 118] ∨
        (BlankLine [107, 58, 118] ∧ openAfter false ([[115]].map lineText) = false) ∨
        ¬ Grants smallBlocks (encode (packTexts false ([[115]].map lineText))).length :=
  loadFile_newline smallBlocks_huge [[115]] [107, 58, 118] (by simp [FitLines]) (by decide) (by decide)

/-- Its last setting is dropped. -/
theorem loadFile_drops_last : ¬ SameLoad smallBlocks [115, 10, 107, 58, 118] [115, 10, 107, 58, 118, 10] := by
  intro hsame
  obtain ⟨r, q, hr, hq, hrq⟩ := hsame
  have hrec : recordsOf false [115, 10, 107, 58, 118, 10] =
      recordsOf false [115, 10, 107, 58, 118] ++ [[107, 58, 118]] := by decide
  have hsize : (encode (recordsOf false [115, 10, 107, 58, 118, 10])).length < packLimit := by decide
  have hmono := encode_mono (recordsOf false [115, 10, 107, 58, 118]) [[107, 58, 118]]
  rw [← hrec] at hmono
  have hf := (loadFile_pieces smallBlocks [115, 10, 107, 58, 118] fun _ => smallBlocks_huge).1
    (grants_of_small smallBlocks_small (by omega))
  have hg := (loadFile_pieces smallBlocks [115, 10, 107, 58, 118, 10] fun _ => smallBlocks_huge).1
    (grants_of_small smallBlocks_small hsize)
  rw [hr.unique hf, hq.unique hg] at hrq
  exact not_sameRecords hrec hsize hrq

end TimeTask
