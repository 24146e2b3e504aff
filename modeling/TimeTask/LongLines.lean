import TimeTask.FinalNewline

/-! Lines longer than the line buffer: each piece of such a line is trimmed and packed on
its own. -/
namespace TimeTask
open Lib

/-- The pieces of a line, its line feed included. -/
def linePieces (line : List Byte) : List (List Byte) := pieces [] (line ++ [10])

def emitted (w : Bool) (line : List Byte) : List (List Byte) := packTexts w ((linePieces line).map lineText)

/-- The value of iswrite behind a line. -/
def openBehind (w : Bool) (line : List Byte) : Bool := openAfter w ((linePieces line).map lineText)

def emissions : Bool → List (List Byte) → List (List (List Byte))
  | _, [] => []
  | w, line :: lines => emitted w line :: emissions (openBehind w line) lines

/-- The records of a line are its whole text, or none for a comment or a blank line, and a
separator at most for a blank line. -/
structure OneRecord (line : List Byte) (recs : List (List Byte)) : Prop where
  comment : CommentLine line → recs = []
  blank : BlankLine line → ∀ r ∈ recs, r = [32]
  text : ¬ CommentLine line → ¬ BlankLine line → recs = [lineText line]

/-- The pointer that loadFile returns holds the records; NULL holds none. -/
def ResultHolds : Option (List Byte) → List (List Byte) → Prop
  | none, recs => recs = []
  | some buf, recs => Holds buf recs

/-- A line that loadFile reads as one: it fits the line buffer, or it is blank, or it is a
comment and so are all its pieces but blank ones outside a section, or outside a section only
spaces come before its last piece. -/
def LineOk (w : Bool) (line : List Byte) : Prop :=
  line.length ≤ 1021 ∨ BlankLine line ∨
    (CommentLine line ∧ ∀ p ∈ linePieces line, CommentLine p ∨ (BlankLine p ∧ w = false)) ∨
    (¬ CommentLine line ∧ w = false ∧ ∀ p ∈ (linePieces line).dropLast, ∀ b ∈ p, b = 32)

def LinesOk : Bool → List (List Byte) → Prop
  | _, [] => True
  | w, line :: lines => LineOk w line ∧ LinesOk (openBehind w line) lines

theorem pieces_feed (line x y : List Byte) :
    pieces line (x ++ 10 :: y) = pieces line (x ++ [10]) ++ pieces [] y := by
  induction x generalizing line with
  | nil => simp [pieces]
  | cons b x ih =>
    rw [List.cons_append, List.cons_append, pieces, pieces]
    by_cases hcut : b = 10 ∨ line.length + 1 = 1022
    · rw [if_pos hcut, if_pos hcut, ih, List.cons_append]
    · rw [if_neg hcut, if_neg hcut, ih]

theorem leftover_feed (line x : List Byte) : leftover line (x ++ [10]) = [] := by
  induction x generalizing line with
  | nil => simp [leftover]
  | cons b x ih =>
    rw [List.cons_append, leftover]
    by_cases hcut : b = 10 ∨ line.length + 1 = 1022
    · rw [if_pos hcut, ih]
    · rw [if_neg hcut, ih]

theorem pieces_flatten (line text : List Byte) :
    (pieces line text).flatten ++ leftover line text = line ++ text := by
  induction text generalizing line with
  | nil => simp [pieces, leftover]
  | cons b text ih =>
    rw [pieces, leftover]
    by_cases hcut : b = 10 ∨ line.length + 1 = 1022
    · rw [if_pos hcut, if_pos hcut, List.flatten_cons, List.append_assoc, ih]
      simp
    · rw [if_neg hcut, if_neg hcut, ih]
      simp

theorem linePieces_flatten (line : List Byte) : (linePieces line).flatten = line ++ [10] := by
  have h := pieces_flatten [] (line ++ [10])
  rw [leftover_feed, List.append_nil, List.nil_append] at h
  exact h

theorem recordsOf_emissions (lines : List (List Byte)) (w : Bool) :
    recordsOf w (fileOf lines) = (emissions w lines).flatten := by
  induction lines generalizing w with
  | nil => rfl
  | cons line lines ih =>
    have hfile : fileOf (line :: lines) = line ++ 10 :: fileOf lines := by simp [fileOf]
    have hi := ih (openBehind w line)
    rw [recordsOf] at hi
    rw [recordsOf, hfile, pieces_feed, List.map_append, packTexts_append, emissions, List.flatten_cons, ← hi]
    rfl

/-- How many bytes trimming keeps in any case. -/
def solid (s : List Byte) : Nat := s.countP fun b => !isTail b

theorem solid_append (s t : List Byte) : solid (s ++ t) = solid s + solid t := List.countP_append

theorem solid_zero {s : List Byte} : solid s = 0 ↔ ∀ b ∈ s, isTail b = true := by
  rw [solid, List.countP_eq_zero]
  simp

theorem solid_flatten {ps : List (List Byte)} : solid ps.flatten = 0 ↔ ∀ p ∈ ps, solid p = 0 := by
  simp only [solid_zero, List.mem_flatten]
  exact ⟨fun h p hp b hb => h b ⟨p, hp, hb⟩, fun h b hb => hb.elim fun p hp => h p hp.1 b hp.2⟩

theorem solid_trim (s : List Byte) : solid (trim s) = solid s := by
  have hspaces : solid ((s.rdropWhile isTail).takeWhile (· == 32)) = 0 := by
    rw [solid_zero]
    intro b hb
    have h32 := List.mem_takeWhile_imp hb
    rw [beq_iff_eq] at h32
    rw [h32]
    rfl
  have htail : solid (s.rtakeWhile isTail) = 0 := by
    rw [solid_zero]
    exact fun b hb => List.mem_rtakeWhile_imp hb
  have h₁ := congrArg solid (List.takeWhile_append_dropWhile (p := (· == 32)) (l := s.rdropWhile isTail))
  have h₂ := congrArg solid (List.rdropWhile_append_rtakeWhile (p := isTail) (l := s))
  rw [solid_append] at h₁ h₂
  rw [trim]
  omega

theorem trim_nil {s : List Byte} : trim s = [] ↔ solid s = 0 := by
  constructor
  · intro h
    rw [← solid_trim, h]
    rfl
  · intro h
    rw [solid_zero] at h
    rw [trim, List.rdropWhile_eq_nil_iff.mpr h]
    rfl

theorem rdropWhile_solid (a : List Byte) {s : List Byte} (h : solid s ≠ 0) :
    (a ++ s).rdropWhile isTail = a ++ s.rdropWhile isTail := by
  have hex : ∃ b ∈ s, isTail b = false := by
    by_contra hn
    push Not at hn
    exact h (solid_zero.mpr fun b hb => by simpa using hn b hb)
  obtain ⟨b, hb, htail⟩ := hex
  obtain ⟨s₁, s₂, rfl⟩ := List.append_of_mem hb
  rw [← List.append_assoc, rdropWhile_keep _ _ htail, rdropWhile_keep _ _ htail, List.append_assoc]

theorem trim_spaces {a s : List Byte} (ha : ∀ b ∈ a, b = 32) (h : solid s ≠ 0) : trim (a ++ s) = trim s := by
  rw [trim, rdropWhile_solid a h, List.dropWhile_append_of_pos fun b hb => by simp [ha b hb], trim]

theorem trim_longer {a s : List Byte} (h : solid s ≠ 0) (ht : trim (a ++ s) = trim s) : ∀ b ∈ a, b = 32 := by
  have hdrop : a.dropWhile (· == 32) = [] := by
    by_contra hne
    rw [trim, rdropWhile_solid a h, List.dropWhile_append, if_neg (by simpa using hne), trim] at ht
    have hlen := congrArg List.length ht
    have hle := (List.dropWhile_sublist (p := (· == 32)) (l := s.rdropWhile isTail)).length_le
    have hpos := List.length_pos_of_ne_nil hne
    rw [List.length_append] at hlen
    omega
  rw [List.dropWhile_eq_nil_iff] at hdrop
  exact fun b hb => by simpa using hdrop b hb

theorem lineText_trim {line : List Byte} (h : NulFree line) : lineText line = trim line := by
  rw [lineText, cstring_eq h]

theorem solid_lineText {line : List Byte} (h : NulFree line) : solid (lineText line) = solid line := by
  rw [lineText_trim h, solid_trim]

theorem blank_iff {line : List Byte} (h : NulFree line) : BlankLine line ↔ solid line = 0 := by
  rw [BlankLine, lineText_trim h, trim_nil]

theorem CommentLine.not_blank {line : List Byte} (h : CommentLine line) : ¬ BlankLine line := by
  intro hb
  rw [CommentLine, hb] at h
  cases h

theorem packTexts_nil (w : Bool) (ls : List (List Byte)) :
    packTexts w (ls.map lineText) = [] ↔ ∀ p ∈ ls, CommentLine p ∨ (BlankLine p ∧ w = false) := by
  induction ls with
  | nil => simp [packTexts]
  | cons l ls ih =>
    rw [List.map_cons, packTexts, List.append_eq_nil_iff, List.forall_mem_cons, ← packText_none]
    cases packText_cases w l with
    | inl hnone => simp [hnone, ih]
    | inr hsome =>
      cases hsome with
      | inl hsep => simp [hsep.2]
      | inr htext => simp [htext.2]

theorem packTexts_blank (ls : List (List Byte)) (h : ∀ p ∈ ls, BlankLine p) :
    ∀ w, ∀ r ∈ packTexts w (ls.map lineText), r = [32] := by
  induction ls with
  | nil => simp [packTexts]
  | cons l ls ih =>
    intro w
    have hl : lineText l = [] := h l (by simp)
    have hi := ih fun p hp => h p (List.mem_cons_of_mem l hp)
    rw [List.map_cons, packTexts, hl]
    cases w with
    | true =>
      intro r hr
      cases List.mem_cons.mp hr with
      | inl hr => exact hr
      | inr hr => exact hi false r hr
    | false => exact hi false

theorem packTexts_single {w : Bool} {ls : List (List Byte)} {t : List Byte} (ht : t ≠ [32])
    (h : packTexts w (ls.map lineText) = [t]) : ∃ a p c, ls = a ++ p :: c ∧
      packTexts w (a.map lineText) = [] ∧ lineText p = t ∧ packTexts true (c.map lineText) = [] := by
  induction ls with
  | nil => cases h
  | cons l ls ih =>
    rw [List.map_cons, packTexts] at h
    cases packText_cases w l with
    | inl hnone =>
      rw [hnone] at h
      obtain ⟨a, p, c, hls, ha, hp, hc⟩ := ih h
      exact ⟨l :: a, p, c, by rw [hls]; rfl, by rw [List.map_cons, packTexts, hnone]; exact ha, hp, hc⟩
    | inr hsome =>
      cases hsome with
      | inl hsep =>
        rw [hsep.2] at h
        exact absurd (List.cons.inj h).1.symm ht
      | inr htext =>
        rw [htext.2] at h
        obtain ⟨hl, hrest⟩ := List.cons.inj h
        exact ⟨[], l, ls, rfl, rfl, hl, hrest⟩

theorem linePieces_short {line : List Byte} (hlf : 10 ∉ line) (hlen : line.length ≤ 1021) :
    linePieces line = [line ++ [10]] := by
  have h := (pieces_line [] line [] hlf (by simpa using hlen)).1
  rw [List.nil_append, pieces] at h
  exact h

theorem pieces_length (line text : List Byte) (h : line.length < 1022) :
    ∀ p ∈ pieces line text, p.length ≤ 1022 := by
  induction text generalizing line with
  | nil => simp [pieces]
  | cons b text ih =>
    rw [pieces]
    by_cases hcut : b = 10 ∨ line.length + 1 = 1022
    · rw [if_pos hcut]
      intro p hp
      cases List.mem_cons.mp hp with
      | inl hp =>
        rw [hp]
        simp
        omega
      | inr hp => exact ih [] (by simp) p hp
    · rw [if_neg hcut]
      exact ih _ (by simp; omega)

theorem nulFree_lf {line : List Byte} (h : NulFree line) : NulFree (line ++ [10]) := by
  intro b hb
  cases List.mem_append.mp hb with
  | inl hl => exact h b hl
  | inr hl =>
    rw [List.mem_singleton.mp hl]
    decide

theorem linePieces_nulFree {line : List Byte} (h : NulFree line) : ∀ p ∈ linePieces line, NulFree p := by
  intro p hp b hb
  have hmem : b ∈ (linePieces line).flatten := List.mem_flatten.mpr ⟨p, hp, hb⟩
  rw [linePieces_flatten] at hmem
  exact nulFree_lf h b hmem

theorem linePieces_ne (line : List Byte) : linePieces line ≠ [] := by
  intro h
  have hf := linePieces_flatten line
  simp [h] at hf

theorem openAfter_silent {w : Bool} {ls : List (List Byte)} (h : packTexts w (ls.map lineText) = []) :
    openAfter w (ls.map lineText) = w := by
  induction ls with
  | nil => rfl
  | cons l ls ih =>
    rw [List.map_cons, packTexts] at h
    rw [List.map_cons, openAfter]
    cases packText_cases w l with
    | inl hnone =>
      rw [hnone] at h ⊢
      exact ih h
    | inr hsome =>
      cases hsome with
      | inl hsep => simp [hsep.2] at h
      | inr htext => simp [htext.2] at h

theorem packText_text (w : Bool) {line : List Byte} (hc : ¬ CommentLine line) (hb : ¬ BlankLine line) :
    packText w (lineText line) = (some (lineText line), true) := by
  unfold CommentLine at hc
  unfold BlankLine at hb
  rw [packText, if_neg hc, if_neg hb]

theorem last_piece {line p : List Byte} {a : List (List Byte)} (hnul : NulFree line)
    (hps : linePieces line = a ++ [p]) (ha : ∀ x ∈ a, ∀ b ∈ x, b = 32) (hb : ¬ BlankLine line) :
    lineText p = lineText line := by
  have hflat := linePieces_flatten line
  rw [hps, List.flatten_append, List.flatten_singleton] at hflat
  have hspaces : ∀ b ∈ a.flatten, b = 32 := by
    intro b hb
    obtain ⟨x, hx, hbx⟩ := List.mem_flatten.mp hb
    exact ha x hx b hbx
  have hzero : solid a.flatten = 0 := solid_zero.mpr fun b hb => by
    rw [hspaces b hb]
    rfl
  have hsolid := congrArg solid hflat
  rw [solid_append, solid_append, hzero, show solid [10] = 0 from rfl] at hsolid
  have hp : solid p ≠ 0 := by
    intro h0
    exact hb ((blank_iff hnul).mpr (by omega))
  have hnp : NulFree p := linePieces_nulFree hnul p (by rw [hps]; simp)
  rw [← lineText_lf line, lineText_trim (nulFree_lf hnul), ← hflat, trim_spaces hspaces hp, lineText_trim hnp]

theorem solid_around {line p : List Byte} {a c : List (List Byte)} (hnul : NulFree line)
    (hps : linePieces line = a ++ p :: c) (hp : lineText p = lineText line) :
    (∀ x ∈ a, solid x = 0) ∧ ∀ x ∈ c, solid x = 0 := by
  have hnp : NulFree p := linePieces_nulFree hnul p (by rw [hps]; simp)
  have hsolid := congrArg solid (linePieces_flatten line)
  have htext := congrArg solid hp
  rw [solid_lineText hnp, solid_lineText hnul] at htext
  rw [hps, List.flatten_append, List.flatten_cons, solid_append, solid_append, solid_append,
    show solid [10] = 0 from rfl] at hsolid
  have hzero : solid a.flatten = 0 ∧ solid c.flatten = 0 := by omega
  rw [solid_flatten, solid_flatten] at hzero
  exact hzero

theorem emitted_spaces {line : List Byte} (hnul : NulFree line) (hc : ¬ CommentLine line)
    (hb : ¬ BlankLine line) (ha : ∀ p ∈ (linePieces line).dropLast, ∀ b ∈ p, b = 32) :
    emitted false line = [lineText line] := by
  have hps := (List.dropLast_concat_getLast (linePieces_ne line)).symm
  have hlast := last_piece hnul hps ha hb
  have hblank : packTexts false ((linePieces line).dropLast.map lineText) = [] := by
    rw [packTexts_nil]
    intro x hx
    have hnx := linePieces_nulFree hnul x (List.dropLast_subset _ hx)
    refine Or.inr ⟨(blank_iff hnx).mpr (solid_zero.mpr fun b hb => ?_), rfl⟩
    rw [ha x hx b hb]
    rfl
  rw [emitted, hps, List.map_append, packTexts_append, hblank, openAfter_silent hblank,
    List.map_singleton, hlast, packTexts, packText_text false hc hb]
  rfl

/-- A text line makes one record of its whole text exactly when it fits the line buffer, or
no section is open and only spaces come before its last piece. -/
theorem emitted_text {w : Bool} {line : List Byte} (hlf : 10 ∉ line) (hnul : NulFree line)
    (hc : ¬ CommentLine line) (hb : ¬ BlankLine line) : emitted w line = [lineText line] ↔
      line.length ≤ 1021 ∨ (w = false ∧ ∀ p ∈ (linePieces line).dropLast, ∀ b ∈ p, b = 32) := by
  constructor
  · intro h
    have hsep : lineText line ≠ [32] := fun he => lineText_first line (by rw [he]; rfl)
    obtain ⟨a, p, c, hps, ha, hp, hcs⟩ := packTexts_single hsep h
    rw [packTexts_nil] at ha hcs
    have hmem : ∀ x, x ∈ a ++ p :: c → NulFree x := by
      rw [← hps]
      exact linePieces_nulFree hnul
    have hflat := linePieces_flatten line
    rw [hps, List.flatten_append, List.flatten_cons] at hflat
    -- the text keeps all solid bytes of the line, so that there are none before and behind its piece
    have hzero := solid_around hnul hps hp
    have hcnil : c = [] := by
      rw [List.eq_nil_iff_forall_not_mem]
      intro x hx
      have hcx := (hcs x hx).resolve_right fun hn => Bool.noConfusion hn.2
      exact hcx.not_blank ((blank_iff (hmem x (by simp [hx]))).mpr (hzero.2 x hx))
    subst hcnil
    by_cases hanil : a = []
    · subst hanil
      have hlen := pieces_length [] (line ++ [10]) (by simp) p (by
        rw [show pieces [] (line ++ [10]) = [] ++ [p] from hps]
        simp)
      simp only [List.flatten_nil, List.nil_append, List.append_nil] at hflat
      rw [hflat, List.length_append, List.length_singleton] at hlen
      exact Or.inl (by omega)
    · obtain ⟨x, hx⟩ := List.exists_mem_of_ne_nil a hanil
      have hblank : BlankLine x := (blank_iff (hmem x (by simp [hx]))).mpr (hzero.1 x hx)
      have hw := ((ha x hx).resolve_left fun hcx => hcx.not_blank hblank).2
      refine Or.inr ⟨hw, fun y hy b hby => ?_⟩
      rw [hps, List.dropLast_concat] at hy
      have htext := congrArg solid hp
      rw [solid_lineText (hmem p (by simp)), solid_lineText hnul] at htext
      have hsolid : solid p ≠ 0 := by
        intro h0
        exact hb ((blank_iff hnul).mpr (htext ▸ h0))
      have htrim : trim (a.flatten ++ p) = trim p := by
        rw [List.flatten_nil, List.append_nil] at hflat
        rw [hflat, ← lineText_trim (nulFree_lf hnul), lineText_lf, ← lineText_trim (hmem p (by simp)), hp]
      exact trim_longer hsolid htrim b (List.mem_flatten.mpr ⟨y, hy, hby⟩)
  · intro h
    cases h with
    | inl hlen =>
      rw [emitted, linePieces_short hlf hlen, List.map_singleton, lineText_lf, packTexts, packText_text w hc hb]
      rfl
    | inr hspaces =>
      rw [hspaces.1]
      exact emitted_spaces hnul hc hb hspaces.2

/-- One line, read in pieces. -/
theorem line_record (w : Bool) {line : List Byte} (hlf : 10 ∉ line) (hnul : NulFree line) :
    OneRecord line (emitted w line) ↔ LineOk w line := by
  by_cases hb : BlankLine line
  · have hc : ¬ CommentLine line := fun hc => hc.not_blank hb
    refine iff_of_true ⟨fun h => absurd h hc, fun _ => ?_, fun _ h => absurd hb h⟩ (Or.inr (Or.inl hb))
    have hflat := congrArg solid (linePieces_flatten line)
    rw [solid_append, (blank_iff hnul).mp hb, show 0 + solid [10] = 0 from rfl, solid_flatten] at hflat
    exact packTexts_blank _ (fun p hp => (blank_iff (linePieces_nulFree hnul p hp)).mpr (hflat p hp)) w
  · by_cases hc : CommentLine line
    · have hnone : OneRecord line (emitted w line) ↔ emitted w line = [] :=
        ⟨fun h => h.comment hc, fun h => ⟨fun _ => h, fun h => absurd h hb, fun h => absurd hc h⟩⟩
      have hshort : line.length ≤ 1021 → ∀ p ∈ linePieces line, CommentLine p ∨ (BlankLine p ∧ w = false) := by
        intro hlen p hp
        rw [linePieces_short hlf hlen, List.mem_singleton] at hp
        rw [hp, CommentLine, lineText_lf]
        exact Or.inl hc
      rw [hnone, emitted, packTexts_nil, LineOk]
      simp only [hb, hc, false_or, true_and, not_true_eq_false, false_and, or_false]
      exact ⟨Or.inr, fun h => h.elim hshort id⟩
    · have hone : OneRecord line (emitted w line) ↔ emitted w line = [lineText line] :=
        ⟨fun h => h.text hc hb, fun h => ⟨fun h => absurd h hc, fun h => absurd h hb, fun _ _ => h⟩⟩
      rw [hone, emitted_text hlf hnul hc hb, LineOk]
      simp [hb, hc]

theorem lines_record (lines : List (List Byte)) (hlf : ∀ l ∈ lines, 10 ∉ l) (hnul : ∀ l ∈ lines, NulFree l) :
    ∀ w, List.Forall₂ OneRecord lines (emissions w lines) ↔ LinesOk w lines := by
  induction lines with
  | nil => exact fun w => by simp [emissions, LinesOk]
  | cons line lines ih =>
    intro w
    rw [emissions, List.forall₂_cons, LinesOk, line_record w (hlf line (by simp)) (hnul line (by simp)),
      ih (fun l hl => hlf l (List.mem_cons_of_mem line hl)) (fun l hl => hnul l (List.mem_cons_of_mem line hl))]

/-- One line is one record: what loadFile returns holds the records of the lines, and each
line makes its own, unless malloc refuses a block. -/
def OneLineOneRecord (malloc : Nat → Bool) (lines : List (List Byte)) : Prop :=
  Grants malloc (encode (recordsOf false (fileOf lines))).length → ∃ r recs,
    LoadFile malloc (some ⟨fileOf lines, false, false⟩) r ∧ ResultHolds r recs.flatten ∧
      recs = emissions false lines ∧ List.Forall₂ OneRecord lines recs

theorem loaded_result {text : List Byte} (h : (encode (recordsOf false text)).length < packLimit) :
    ResultHolds (loaded (recordsOf false text)) (recordsOf false text) := by
  cases hl : loaded (recordsOf false text) with
  | none => exact loaded_nil hl h
  | some buf => exact loaded_holds hl

/-- One line is one record exactly when every line is read as one, or malloc refuses a block. -/
theorem one_line_one_record {malloc : Nat → Bool} (hh : MallocHuge malloc) (lines : List (List Byte))
    (hlf : ∀ l ∈ lines, 10 ∉ l) (hnul : ∀ l ∈ lines, NulFree l) :
    OneLineOneRecord malloc lines ↔
      LinesOk false lines ∨ ¬ Grants malloc (encode (recordsOf false (fileOf lines))).length := by
  have hload := (loadFile_pieces malloc (fileOf lines) fun _ => hh).1
  rw [← lines_record lines hlf hnul]
  constructor
  · intro h
    by_cases hg : Grants malloc (encode (recordsOf false (fileOf lines))).length
    · obtain ⟨r, recs, _, _, hrecs, hall⟩ := h hg
      rw [hrecs] at hall
      exact Or.inl hall
    · exact Or.inr hg
  · intro h hg
    cases h with
    | inr hn => exact absurd hg hn
    | inl hall =>
      refine ⟨_, _, hload hg, ?_, rfl, hall⟩
      rw [← recordsOf_emissions]
      exact loaded_result hg.small

theorem pieces_full (line x text : List Byte) (hlf : 10 ∉ x) (hlen : line.length + x.length = 1022)
    (hx : x ≠ []) : pieces line (x ++ text) = (line ++ x) :: pieces [] text := by
  obtain hnil | ⟨y, b, hy⟩ := List.eq_nil_or_concat' x
  · exact absurd hnil hx
  · subst hy
    rw [List.length_append, List.length_singleton] at hlen
    have hlf' : 10 ∉ y := fun hm => hlf (List.mem_append_left [b] hm)
    rw [List.append_assoc, (pieces_take line y ([b] ++ text) hlf' (by omega)).1, List.singleton_append, pieces,
      if_pos (Or.inr (by rw [List.length_append]; omega)), List.append_assoc]

def letters (n : Nat) : List Byte := List.replicate n 97

theorem letters_length (n : Nat) : (letters n).length = n := List.length_replicate

def spaces (n : Nat) : List Byte := List.replicate n 32

/-- A comment, a text behind more spaces than fit the line buffer, a short text, a blank line that
does not fit it, and the longest text that does. -/
def noisyLines : List (List Byte) :=
  [[47, 47, 99], spaces 1022 ++ [97], [107, 58, 118], spaces 1500, letters 1021]

theorem noisyLines_ok : LinesOk false noisyLines := by
  have hspaces : ∀ n, ∀ b ∈ spaces n, b = 32 := fun n b hb => (List.mem_replicate.mp hb).2
  have hlong : LineOk false (spaces 1022 ++ [97]) := by
    have hps : linePieces (spaces 1022 ++ [97]) = [spaces 1022, [97, 10]] := by
      rw [linePieces, List.append_assoc]
      exact pieces_full [] (spaces 1022) [97, 10] (fun h => by cases hspaces 1022 10 h) (by rw [spaces, List.length_replicate]; rfl)
        (List.cons_ne_nil _ _)
    have hplain : PlainText [97] := mixed_plain (Or.inl rfl)
    have htext : lineText (spaces 1022 ++ [97]) = [97] := by
      have h := lineText_line (l := .text 1022 [97] []) (fun b hb => by cases hb) fun t ht => Option.some.inj ht ▸ hplain
      rw [Line.bytes, List.append_nil] at h
      exact h
    refine Or.inr (Or.inr (Or.inr ⟨?_, rfl, fun p hp b hb => ?_⟩))
    · rw [CommentLine, htext]
      decide
    · rw [hps, List.dropLast_cons_cons, List.dropLast_singleton, List.mem_singleton] at hp
      exact hspaces 1022 b (hp ▸ hb)
  have hblank : BlankLine (spaces 1500) :=
    lineText_line (l := .blank (spaces 1500)) (fun b hb => Or.inl (hspaces 1500 b hb)) fun t ht => by cases ht
  have hw : openBehind false [47, 47, 99] = false := by decide
  refine ⟨Or.inl (by decide), hw ▸ hlong, Or.inl (by decide), Or.inr (Or.inl hblank), Or.inl ?_, trivial⟩
  rw [letters_length]

theorem one_line_one_record_noisy : OneLineOneRecord smallBlocks noisyLines ∧
    Grants smallBlocks (encode (recordsOf false (fileOf noisyLines))).length := by
  have hsize : (encode (recordsOf false (fileOf noisyLines))).length < packLimit := by decide +kernel
  exact ⟨(one_line_one_record smallBlocks_huge noisyLines (by decide +kernel) (by decide +kernel)).mpr
    (Or.inl noisyLines_ok), grants_of_small smallBlocks_small hsize⟩

theorem letters_mem {n : Nat} {b : Byte} (h : b ∈ letters n) : b = 97 := (List.mem_replicate.mp h).2

theorem lineText_letters (n : Nat) : lineText (letters n) = letters n := by
  have hnul : NulFree (letters n) := by
    intro b hb
    rw [letters_mem hb]
    decide
  have hself : (letters n).rdropWhile isTail = letters n := by
    rw [List.rdropWhile_eq_self_iff]
    intro hne
    rw [letters_mem (List.getLast_mem hne)]
    decide
  rw [lineText_trim hnul, trim, hself]
  cases n with
  | zero => rfl
  | succ n => rfl

theorem letters_plain (n : Nat) : ¬ CommentLine (letters (n + 1)) ∧ ¬ BlankLine (letters (n + 1)) := by
  constructor
  · intro h
    rw [CommentLine, lineText_letters] at h
    cases n with
    | zero => cases h
    | succ n => cases h
  · intro h
    rw [BlankLine, lineText_letters] at h
    cases h

/-- A line of 1022 letters makes two records: its line feed is a piece of its own, and that
piece is blank. -/
theorem long_line_splits : ¬ OneLineOneRecord smallBlocks [letters 1022] := by
  have hlf : 10 ∉ letters 1022 := by
    intro hm
    have h := letters_mem hm
    cases h
  have hlen := letters_length 1022
  have hne : letters 1022 ≠ [] := by
    intro h
    rw [h] at hlen
    cases hlen
  have hps : linePieces (letters 1022) = [letters 1022, [10]] :=
    pieces_full [] (letters 1022) [10] hlf (by rw [hlen]; rfl) hne
  obtain ⟨hc, hb⟩ := letters_plain 1021
  have hrecs : emitted false (letters 1022) = [letters 1022, [32]] := by
    have hfirst := packText_text false hc hb
    rw [lineText_letters] at hfirst
    rw [emitted, hps, List.map_cons, lineText_letters, packTexts, hfirst]
    rfl
  intro h
  have hsize : (encode (recordsOf false (fileOf [letters 1022]))).length < packLimit := by
    rw [recordsOf_emissions, emissions, hrecs]
    simp only [emissions, List.flatten_cons, List.flatten_nil, List.append_nil, encode_cons, List.length_append,
      List.length_cons, hlen]
    decide
  obtain ⟨r, recs, _, _, hem, hall⟩ := h (grants_of_small smallBlocks_small hsize)
  rw [hem, emissions, hrecs, List.forall₂_cons] at hall
  have htext := congrArg List.length (hall.1.text hc hb)
  simp only [List.length_cons, List.length_nil] at htext
  omega

end TimeTask
