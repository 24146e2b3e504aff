import TimeTask.Pieces

/-! loadFile on a stream that ends in a read error: the error never sets the end-of-file
flag, on which alone the loop ends. -/
namespace TimeTask
open Lib

/-- The records packed up to a read error: those of the pieces, of what was read last, and
of one call of fgets that reads nothing. -/
def erroredRecords (text : List Byte) : List (List Byte) :=
  packTexts false ((pieces [] text ++ [leftover [] text, []]).map lineText)

/-- The stream stands at its error and no section is open: fgets reads nothing, and nothing
is written. -/
def Stuck (s : Load) : Prop := s.fg = ⟨[], true, false⟩ ∧ s.iswrite = false

theorem stuck_again (malloc : Nat → Bool) (s : Load) (h : Stuck s) :
    ∃ t, loadBody malloc s = .again t ∧ Stuck t := by
  obtain ⟨hfg, hw⟩ := h
  have ht : takeLine 1022 s.fg.rest = ([], [], true) := by
    rw [hfg]
    rfl
  have hbody := loadBody_piece malloc ht (by rw [hfg]; rfl) (by simp)
  have hpack : packText s.iswrite (lineText []) = (none, false) := by
    rw [hw]
    rfl
  rw [hpack] at hbody
  exact ⟨_, hbody, by rw [hfg], rfl⟩

theorem packText_blank (w : Bool) : (packText w (lineText [])).2 = false := by
  cases w <;> rfl

/-- At the error the loop packs what was read last and a separator. It never leaves, unless
malloc refuses a block. -/
theorem error_run {malloc : Nat → Bool} (hh : MallocHuge malloc) {recs : List (List Byte)} {s : Load}
    (hps : pieces [] s.fg.rest = []) (hf : s.fg.fails = true) (hp : Packed recs s)
    (hg : Grants malloc (encode recs).length) :
    (Grants malloc (encode (recs ++ packTexts s.iswrite ([leftover [] s.fg.rest, []].map lineText))).length ∧
      ∀ r, ¬ Leaves (loadBody malloc) s r) ∨
    (¬ Grants malloc (encode (recs ++ packTexts s.iswrite ([leftover [] s.fg.rest, []].map lineText))).length ∧
      Leaves (loadBody malloc) s (some none)) := by
  obtain ⟨ht, hlen⟩ := pieces_end hps
  have he : (true && !s.fg.fails) = false := by
    rw [hf]
    rfl
  simp only [List.map_cons, List.map_nil, packTexts, List.append_nil, ← List.append_assoc]
  cases line_step ht he (by omega) hp hg fun _ => hh with
  | inr hstop => exact Or.inr ⟨fun h => hstop.1 (h.mono (encode_mono _ _)), Leaves.now hstop.2⟩
  | inl hstep =>
    obtain ⟨hg₁, s₁, hs₁, hp₁, hw₁, hfg₁⟩ := hstep
    have ht₁ : takeLine 1022 s₁.fg.rest = ([], [], true) := by
      rw [hfg₁]
      rfl
    have he₁ : (true && !s₁.fg.fails) = false := by
      rw [hfg₁, hf]
      rfl
    rw [← hw₁]
    cases line_step ht₁ he₁ (by simp) hp₁ hg₁ fun _ => hh with
    | inr hstop => exact Or.inr ⟨hstop.1, Leaves.step hs₁ (Leaves.now hstop.2)⟩
    | inl hstep =>
      obtain ⟨hg₂, s₂, hs₂, _, hw₂, hfg₂⟩ := hstep
      have hgo := (Goes.one hs₁).trans (Goes.one hs₂)
      have hstuck : Stuck s₂ := ⟨by rw [hfg₂, hfg₁, hf], by rw [hw₂, packText_blank]⟩
      exact Or.inl ⟨hg₂, fun r hl => not_leaves (stuck_again malloc) hstuck r (hl.after hgo)⟩

/-- loadFile returns exactly when the stream ends in the end of the file, or malloc refuses
a block that the records up to the error need. -/
theorem loadFile_returns {malloc : Nat → Bool} (hh : MallocHuge malloc) (text : List Byte) (fails : Bool) :
    (∃ r, LoadFile malloc (some ⟨text, fails, false⟩) r) ↔
      fails = false ∨ ¬ Grants malloc (encode (erroredRecords text)).length := by
  cases fails with
  | false =>
    refine iff_of_true ?_ (Or.inl rfl)
    obtain ⟨hgood, hbad⟩ := loadFile_pieces malloc text fun _ => hh
    by_cases hg : Grants malloc (encode (recordsOf false text)).length
    · exact ⟨_, hgood hg⟩
    · exact ⟨_, hbad hg⟩
  | true =>
    simp only [loadFile_start, Bool.true_eq_false, false_or]
    cases hm : malloc 1024 with
    | false => exact iff_of_true ⟨none, rfl⟩ fun hg => by simpa [blockSize, hm] using hg.block 0 (Nat.zero_le _)
    | true =>
      simp only [if_true]
      have hrun := pieces_run malloc (pieces [] text) [] (loadStart ⟨text, true, false⟩) rfl rfl
        (loadStart_packed _) (grants_zero hm) fun _ => hh
      rw [erroredRecords, List.map_append, packTexts_append]
      simp only [List.nil_append, loadStart] at hrun
      cases hrun with
      | inr hstop =>
        refine iff_of_true ⟨none, hstop.2⟩ fun hg => hstop.1 (hg.mono (encode_mono _ _))
      | inl hgood =>
        obtain ⟨hg, s', hgo, hp, hw, hf, _, hps, hlo⟩ := hgood
        have herr := error_run hh hps hf hp hg
        rw [hw, hlo] at herr
        cases herr with
        | inl hnever =>
          refine iff_of_false (fun hl => ?_) fun hn => hn hnever.1
          obtain ⟨r, hr⟩ := hl
          exact hnever.2 _ (hr.after hgo)
        | inr hstop => exact iff_of_true ⟨none, Leaves.of_goes hgo hstop.2⟩ hstop.1

/-- Blocks below 2 GB are there, larger ones are not. -/
def smallBlocks (n : Nat) : Bool := decide (n < 2 ^ 31)

theorem smallBlocks_huge : MallocHuge smallBlocks := by
  intro n hn
  rw [smallBlocks, decide_eq_false]
  omega

theorem smallBlocks_small : MallocSmall smallBlocks := fun _ hn => decide_eq_true hn

/-- The file "s". -/
theorem loadFile_returns_short : (∃ r, LoadFile smallBlocks (some ⟨[115, 10], false, false⟩) r) ↔
    false = false ∨ ¬ Grants smallBlocks (encode (erroredRecords [115, 10])).length :=
  loadFile_returns smallBlocks_huge [115, 10] false

/-- A directory opens for reading, and its first read fails: loadFile never returns. -/
theorem loadFile_hangs : ¬ ∃ r, LoadFile smallBlocks (some ⟨[], true, false⟩) r := by
  intro h
  obtain ⟨r, hr⟩ := h
  rw [loadFile_start, if_pos (by decide)] at hr
  exact not_leaves (stuck_again smallBlocks) ⟨rfl, rfl⟩ _ hr

end TimeTask
