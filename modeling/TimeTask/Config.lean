import TimeTask.LongLines
import TimeTask.PackBounds
import TimeTask.Rejected

/-! What a configuration file means: loadFile and readFile as one function of its text, how
texts compose, and the form in which every accepted text can be written. -/
namespace TimeTask
open Lib

/-- What main has after loadFile and readFile: NULL from loadFile, a refusal of readFile, or
the sections. -/
inductive ConfResult where
  | noFile
  | rejected
  | read (confs : List Conf)
deriving DecidableEq, Repr

/-- loadFile and readFile, as main calls them. -/
def ReadsConf (malloc : Nat → Bool) (fg : Option Stream) (brk : Addr) : ConfResult → Prop
  | .noFile => LoadFile malloc fg none
  | .rejected => ∃ buf q, LoadFile malloc fg (some buf) ∧ ReadFile (some buf) true brk q ∧ q.ret ≠ 0
  | .read confs => ∃ buf q files, LoadFile malloc fg (some buf) ∧ ReadFile (some buf) true brk q ∧
      q.ret = 0 ∧ q.res = some files ∧ files.map (fun f => f.2.conf buf) = confs

/-- The meaning of packed sections. -/
def meaningOf (gs : List Group) : ConfResult :=
  if gs = [] then .noFile
  else if gs.any Group.bad then .rejected
  else .read (gs.map Group.conf)

def meaning (text : List Byte) : ConfResult := meaningOf (sections (recordsOf false text))

def ConfResult.append : ConfResult → ConfResult → ConfResult
  | .noFile, c => c
  | .rejected, _ => .rejected
  | .read x, .noFile => .read x
  | .read _, .rejected => .rejected
  | .read x, .read y => .read (x ++ y)

theorem any_bad_iff {gs : List Group} :
    gs.any Group.bad = false ↔ ∀ g ∈ gs, ∀ r ∈ g.entries, Splits r := by
  simp [Group.bad]

theorem ReadsConf.unique {malloc : Nat → Bool} {fg : Option Stream} {brk : Addr} {c d : ConfResult}
    (hc : ReadsConf malloc fg brk c) (hd : ReadsConf malloc fg brk d) : c = d := by
  cases c with
  | noFile =>
    cases d with
    | noFile => rfl
    | rejected =>
      obtain ⟨buf, q, hl, _⟩ := hd
      cases LoadFile.unique hc hl
    | read y =>
      obtain ⟨buf, q, files, hl, _⟩ := hd
      cases LoadFile.unique hc hl
  | rejected =>
    obtain ⟨buf, q, hl, hq, hret⟩ := hc
    cases d with
    | noFile => cases LoadFile.unique hd hl
    | rejected => rfl
    | read y =>
      obtain ⟨buf', q', files, hl', hq', hret', _⟩ := hd
      cases LoadFile.unique hl hl'
      cases Leaves.unique hq hq'
      exact absurd hret' hret
  | read x =>
    obtain ⟨buf, q, files, hl, hq, hret, hres, hx⟩ := hc
    cases d with
    | noFile => cases LoadFile.unique hd hl
    | rejected =>
      obtain ⟨buf', q', hl', hq', hret'⟩ := hd
      cases LoadFile.unique hl hl'
      cases Leaves.unique hq hq'
      exact absurd hret hret'
    | read y =>
      obtain ⟨buf', q', files', hl', hq', _, hres', hy⟩ := hd
      cases LoadFile.unique hl hl'
      cases Leaves.unique hq hq'
      rw [hres] at hres'
      cases hres'
      rw [← hx, ← hy]

theorem encode_length_ne_zero {recs : List (List Byte)} (h : recs ≠ []) : (encode recs).length ≠ 0 := by
  cases recs with
  | nil => exact absurd rfl h
  | cons r recs => simp [encode_cons]

/-- A text whose blocks malloc grants is read as what it means. -/
theorem reads_meaning {malloc : Nat → Bool} {text : List Byte}
    (hg : Grants malloc (encode (recordsOf false text)).length) (brk : Addr) :
    ReadsConf malloc (some ⟨text, false, false⟩) brk (meaning text) := by
  have hload := (loadFile_pieces malloc text fun hl => absurd hg.small (by omega)).1 hg
  have hw := recordsOf_wellFormed text
  unfold meaning meaningOf
  generalize recordsOf false text = recs at hload hw hg
  by_cases hnil : recs = []
  · rw [hnil] at hload ⊢
    exact hload
  · rw [if_neg (sections_ne_nil hw hnil)]
    have hpos := encode_length_ne_zero hnil
    have hsome : ∃ buf, loaded recs = some buf := by
      refine ⟨_, if_neg ?_⟩
      have hsmall := hg.small
      omega
    obtain ⟨buf, hbuf⟩ := hsome
    obtain ⟨k, hk⟩ := loaded_zeros hbuf
    rw [hbuf] at hload
    obtain ⟨q, hq, hres⟩ := hw.read (List.replicate k 0) brk
    rw [← hk] at hq
    cases hres with
    | inl hgood =>
      obtain ⟨hret, hsplits, files, hfiles, hconf⟩ := hgood
      rw [if_neg (by simp [any_bad_iff.mpr hsplits])]
      exact ⟨buf, q, files, hload, hq, hret, hfiles, by rw [hk]; exact hconf⟩
    | inr hbad =>
      obtain ⟨hret, _, hsplits⟩ := hbad
      rw [if_pos (by rw [← Bool.not_eq_false, any_bad_iff]; exact hsplits)]
      exact ⟨buf, q, hload, hq, by rw [hret]; decide⟩

/-- loadFile and readFile compute the meaning of the text, or loadFile gives up for want of a block. -/
theorem readsConf_iff (malloc : Nat → Bool) (text : List Byte)
    (hh : packLimit ≤ (encode (recordsOf false text)).length → MallocHuge malloc) (brk : Addr)
    (c : ConfResult) :
    (Grants malloc (encode (recordsOf false text)).length →
      (ReadsConf malloc (some ⟨text, false, false⟩) brk c ↔ c = meaning text)) ∧
    (¬ Grants malloc (encode (recordsOf false text)).length →
      (ReadsConf malloc (some ⟨text, false, false⟩) brk c ↔ c = .noFile)) := by
  constructor
  · intro hg
    have hm := reads_meaning hg brk
    exact ⟨fun hc => hc.unique hm, fun he => he ▸ hm⟩
  · intro hg
    have hm : ReadsConf malloc (some ⟨text, false, false⟩) brk .noFile :=
      (loadFile_pieces malloc text hh).2 hg
    exact ⟨fun hc => hc.unique hm, fun he => he ▸ hm⟩

/-- The file "s", "k:v". -/
theorem readsConf_iff_short :
    (Grants smallBlocks (encode (recordsOf false [115, 10, 107, 58, 118, 10])).length →
      (ReadsConf smallBlocks (some ⟨[115, 10, 107, 58, 118, 10], false, false⟩) 0 (.read [⟨[115], [([107], [118])]⟩]) ↔
        .read [⟨[115], [([107], [118])]⟩] = meaning [115, 10, 107, 58, 118, 10])) ∧
    (¬ Grants smallBlocks (encode (recordsOf false [115, 10, 107, 58, 118, 10])).length →
      (ReadsConf smallBlocks (some ⟨[115, 10, 107, 58, 118, 10], false, false⟩) 0 (.read [⟨[115], [([107], [118])]⟩]) ↔
        .read [⟨[115], [([107], [118])]⟩] = ConfResult.noFile)) :=
  readsConf_iff smallBlocks [115, 10, 107, 58, 118, 10] (fun _ => smallBlocks_huge) 0
    (.read [⟨[115], [([107], [118])]⟩])

theorem sections_separator (x y : List (List Byte)) :
    sections (x ++ [32] :: y) = sections x ++ sections y := by
  rw [sections, List.splitOn_append_cons_self, List.filterMap_append]
  rfl

theorem packTexts_closed (ts : List (List Byte)) : ∀ w, openAfter w ts = false →
    (w = false ∧ packTexts w ts = []) ∨ ∃ x, packTexts w ts = x ++ [[32]] := by
  induction ts with
  | nil => exact fun w hw => .inl ⟨hw, rfl⟩
  | cons t ts ih =>
    intro w hw
    have hrec := ih (packText w t).2 hw
    rw [packTexts]
    cases hrec with
    | inr hsep =>
      obtain ⟨x, hx⟩ := hsep
      exact .inr ⟨(packText w t).1.toList ++ x, by rw [hx, List.append_assoc]⟩
    | inl hnil =>
      obtain ⟨hclosed, hnil⟩ := hnil
      rw [hnil, List.append_nil]
      unfold packText at hclosed ⊢
      by_cases hc : t.take 2 = [47, 47]
      · rw [if_pos hc] at hclosed ⊢
        exact .inl ⟨hclosed, rfl⟩
      · rw [if_neg hc] at hclosed ⊢
        by_cases he : t = []
        · rw [if_pos he] at hclosed ⊢
          cases w with
          | true => exact .inr ⟨[], rfl⟩
          | false => exact .inl ⟨rfl, rfl⟩
        · rw [if_neg he] at hclosed
          cases hclosed

/-- A blank line between two texts: the records of both, with a separator where one is due. -/
theorem recordsOf_blank (a b : List Byte) : recordsOf false (a ++ 10 :: 10 :: b) =
    recordsOf false (a ++ [10]) ++
      ((if openAfter false ((pieces [] (a ++ [10])).map lineText) then [[32]] else []) ++ recordsOf false b) := by
  have hfeed : pieces [] (10 :: b) = [10] :: pieces [] b := by simp [pieces]
  have hblank : lineText [10] = [] := by decide
  rw [recordsOf, pieces_feed, hfeed, List.map_append, packTexts_append, List.map_cons, hblank, packTexts]
  cases openAfter false ((pieces [] (a ++ [10])).map lineText) with
  | true => simp [packText, recordsOf]
  | false => simp [packText, recordsOf]

theorem sections_blank (a b : List Byte) : sections (recordsOf false (a ++ 10 :: 10 :: b)) =
    sections (recordsOf false (a ++ [10])) ++ sections (recordsOf false b) := by
  rw [recordsOf_blank]
  cases hw : openAfter false ((pieces [] (a ++ [10])).map lineText) with
  | true => exact sections_separator _ _
  | false =>
    rw [if_neg (by simp), List.nil_append]
    have hrecs : recordsOf false (a ++ [10]) = packTexts false ((pieces [] (a ++ [10])).map lineText) := rfl
    rw [hrecs]
    cases packTexts_closed _ _ hw with
    | inl hnil =>
      rw [hnil.2]
      rfl
    | inr hsep =>
      obtain ⟨x, hx⟩ := hsep
      have hlast := sections_separator x []
      rw [hx, List.append_assoc, List.singleton_append, sections_separator, hlast]
      simp [sections, Group.ofRecords]

/-- The meaning of sections one after the other. -/
theorem meaningOf_append (x y : List Group) :
    meaningOf (x ++ y) = (meaningOf x).append (meaningOf y) := by
  unfold meaningOf
  by_cases hx : x = []
  · simp [hx, ConfResult.append]
  · by_cases hy : y = []
    · rw [if_neg (by simp [hx]), if_neg hx, if_pos hy, hy, List.append_nil]
      cases x.any Group.bad with
      | true => rfl
      | false => rfl
    · rw [if_neg (by simp [hx]), if_neg hx, if_neg hy, List.any_append, List.map_append]
      cases x.any Group.bad with
      | true => rfl
      | false =>
        cases y.any Group.bad with
        | true => rfl
        | false => rfl

/-- Two texts with a blank line between them are read as the sections of the one and then those
of the other, and they are refused when one of them is. -/
theorem readsConf_append {malloc : Nat → Bool} {a b : List Byte}
    (hg : Grants malloc (encode (recordsOf false (a ++ 10 :: 10 :: b))).length) (brk : Addr) {c d : ConfResult}
    (hc : ReadsConf malloc (some ⟨a ++ [10], false, false⟩) brk c)
    (hd : ReadsConf malloc (some ⟨b, false, false⟩) brk d) :
    ReadsConf malloc (some ⟨a ++ 10 :: 10 :: b, false, false⟩) brk (c.append d) := by
  have hlen : (encode (recordsOf false (a ++ [10]))).length ≤
        (encode (recordsOf false (a ++ 10 :: 10 :: b))).length ∧
      (encode (recordsOf false b)).length ≤ (encode (recordsOf false (a ++ 10 :: 10 :: b))).length := by
    rw [recordsOf_blank, encode_append, encode_append]
    simp only [List.length_append]
    omega
  have hwhole := reads_meaning hg brk
  rw [meaning, sections_blank, meaningOf_append] at hwhole
  rw [hc.unique (reads_meaning (hg.mono hlen.1) brk), hd.unique (reads_meaning (hg.mono hlen.2) brk)]
  exact hwhole

/-- The text "s" and, behind a blank line, the text "t". -/
theorem readsConf_append_two : ReadsConf smallBlocks (some ⟨[115] ++ 10 :: 10 :: [116, 10], false, false⟩) 0
    ((ConfResult.read [⟨[115], []⟩]).append (.read [⟨[116], []⟩])) :=
  have hs : ReadsConf smallBlocks (some ⟨[115] ++ [10], false, false⟩) 0 (.read [⟨[115], []⟩]) :=
    reads_meaning (grants_of_small smallBlocks_small (by decide)) 0
  have ht : ReadsConf smallBlocks (some ⟨[116, 10], false, false⟩) 0 (.read [⟨[116], []⟩]) :=
    reads_meaning (grants_of_small smallBlocks_small (by decide)) 0
  readsConf_append (grants_of_small smallBlocks_small (by decide)) 0 hs ht

theorem pieces_lf (text : List Byte) : ∀ line, 10 ∉ line → ∀ p ∈ pieces line text,
    ∃ q, 10 ∉ q ∧ lineText p = lineText q := by
  induction text with
  | nil => intro line _ p hp; simp [pieces] at hp
  | cons b text ih =>
    intro line hline p hp
    have hmore : b ≠ 10 → 10 ∉ line ++ [b] := by
      intro hb hmem
      cases List.mem_append.mp hmem with
      | inl hmem => exact hline hmem
      | inr hmem => exact hb (List.mem_singleton.mp hmem).symm
    rw [pieces] at hp
    by_cases hcut : b = 10 ∨ line.length + 1 = 1022
    · rw [if_pos hcut] at hp
      cases List.mem_cons.mp hp with
      | inr hp => exact ih [] (by simp) p hp
      | inl he =>
        rw [he]
        by_cases hb : b = 10
        · rw [hb]
          exact ⟨line, hline, lineText_lf line⟩
        · exact ⟨line ++ [b], hmore hb, rfl⟩
    · rw [if_neg hcut] at hp
      exact ih (line ++ [b]) (hmore fun hb => hcut (.inl hb)) p hp

theorem lineText_subset {line : List Byte} {b : Byte} (hb : b ∈ lineText line) : b ∈ line := by
  obtain ⟨j, u, hsplit, _⟩ := trim_parts (cstring line)
  have hmem : b ∈ cstring line := by
    rw [hsplit]
    exact List.mem_append_left _ (List.mem_append_right _ hb)
  exact (List.takeWhile_subset _) hmem

theorem lineText_plain {q : List Byte} (hlf : 10 ∉ q) (hne : lineText q ≠ [])
    (hc : (lineText q).take 2 ≠ [47, 47]) : PlainText (lineText q) where
  nulFree := lineText_nulFree q
  lf := fun hmem => hlf (lineText_subset hmem)
  ne := hne
  first := lineText_first q
  comment := hc
  last := by
    intro b hb
    have hend := (trim_ends (cstring q)).1 hne
    have he : (trim (cstring q)).getLast hne = b := by
      rw [List.getLast?_eq_getLast_of_ne_nil hne] at hb
      exact Option.some.inj hb
    rw [he] at hend
    constructor
    · intro h32
      rw [h32] at hend
      exact absurd hend (by decide)
    · intro h13
      rw [h13] at hend
      exact absurd hend (by decide)

theorem recordsOf_plain (text : List Byte) : ∀ r ∈ recordsOf false text, r = [32] ∨ PlainText r := by
  have hall : ∀ p ∈ pieces [] text, ∃ q, 10 ∉ q ∧ lineText p = lineText q := pieces_lf text [] (by simp)
  have hpack : ∀ ps : List (List Byte), (∀ p ∈ ps, ∃ q, 10 ∉ q ∧ lineText p = lineText q) →
      ∀ w, ∀ r ∈ packTexts w (ps.map lineText), r = [32] ∨ PlainText r := by
    intro ps
    induction ps with
    | nil => intro _ w r hr; simp [packTexts] at hr
    | cons p ps ih =>
      intro hps w r hr
      rw [List.map_cons, packTexts] at hr
      cases List.mem_append.mp hr with
      | inr hr => exact ih (fun x hx => hps x (List.mem_cons_of_mem p hx)) _ r hr
      | inl hr =>
        obtain ⟨q, hlf, hq⟩ := hps p List.mem_cons_self
        rw [hq] at hr
        unfold packText at hr
        by_cases hc : (lineText q).take 2 = [47, 47]
        · simp [hc] at hr
        · rw [if_neg hc] at hr
          by_cases hne : lineText q = []
          · rw [if_pos hne] at hr
            cases w with
            | true => exact .inl (by simpa using hr)
            | false => simp at hr
          · rw [if_neg hne] at hr
            simp only [Option.toList_some, List.mem_singleton] at hr
            rw [hr]
            exact .inr (lineText_plain hlf hne hc)
  exact hpack _ hall false

theorem sections_mem {recs : List (List Byte)} {g : Group} (hg : g ∈ sections recs) :
    ∀ r ∈ g.records, r ∈ recs ∧ r ≠ [32] := by
  obtain ⟨b, hb, hgb⟩ := List.mem_filterMap.mp hg
  cases b with
  | nil => cases hgb
  | cons name entries =>
    cases hgb
    exact splitOn_mem (name :: entries) hb

def canonicalLines : List Conf → List Line
  | [] => []
  | [c] => c.lines
  | c :: cs => c.lines ++ .blank [] :: canonicalLines cs

theorem canonicalLines_cons (c : Conf) {cs : List Conf} (h : cs ≠ []) :
    canonicalLines (c :: cs) = c.lines ++ .blank [] :: canonicalLines cs := by
  cases cs with
  | nil => exact absurd rfl h
  | cons d ds => rfl

theorem Conf.lines_core (c : Conf) : c.lines.map Line.core = c.texts.map some := by
  simp [Conf.lines, Line.core]

theorem canonicalLines_mem {confs : List Conf} : ∀ l ∈ canonicalLines confs,
    l = .blank [] ∨ ∃ c ∈ confs, ∃ t ∈ c.texts, l = .text 0 t [] := by
  induction confs with
  | nil => simp [canonicalLines]
  | cons c cs ih =>
    have hown : ∀ l ∈ c.lines, ∃ d ∈ c :: cs, ∃ t ∈ d.texts, l = .text 0 t [] := by
      intro l hl
      obtain ⟨t, ht, rfl⟩ := List.mem_map.mp hl
      exact ⟨c, List.mem_cons_self, t, ht, rfl⟩
    intro l hl
    by_cases hcs : cs = []
    · rw [hcs] at hl
      exact .inr (hown l hl)
    · rw [canonicalLines_cons c hcs] at hl
      cases List.mem_append.mp hl with
      | inl hl => exact .inr (hown l hl)
      | inr hl =>
        cases List.mem_cons.mp hl with
        | inl hb => exact .inl hb
        | inr hl =>
          obtain hb | ⟨d, hd, ht⟩ := ih l hl
          · exact .inl hb
          · exact .inr ⟨d, List.mem_cons_of_mem c hd, ht⟩

theorem canonicalLines_plain {confs : List Conf} (hok : ∀ c ∈ confs, c.Ok) :
    PlainLines (canonicalLines confs) := by
  intro l hl
  obtain rfl | ⟨c, hc, t, ht, rfl⟩ := canonicalLines_mem l hl
  · exact ⟨by simp [Line.Ok, IsPad], by simp [Line.core]⟩
  · refine ⟨by simp [Line.Ok, IsPad], ?_⟩
    intro t' ht'
    cases ht'
    exact (hok c hc).text t ht

theorem canonicalLines_pack {confs : List Conf} (hok : ∀ c ∈ confs, c.Ok) :
    packTexts false (Line.texts (canonicalLines confs)) = joinGroups false (confs.map Conf.group) := by
  induction confs with
  | nil => rfl
  | cons c cs ih =>
    have hplain := canonicalLines_plain hok
    have hne : c.texts ≠ [] := by simp [Conf.texts]
    by_cases hcs : cs = []
    · subst hcs
      have hlines : canonicalLines [c] = c.lines ++ [] := (List.append_nil _).symm
      rw [hlines] at hplain ⊢
      rw [packTexts_texts c.lines [] c.texts false c.lines_core hne hplain]
      simp [Line.texts, packTexts, joinGroups, Conf.group_records]
    · rw [canonicalLines_cons c hcs] at hplain ⊢
      have hrest := ih fun d hd => hok d (List.mem_cons_of_mem c hd)
      rw [packTexts_texts c.lines _ c.texts false c.lines_core hne hplain,
        packTexts_line true _ _ hplain.append, List.map_cons,
        joinGroups_cons false c.group (by simpa using hcs), Conf.group_records, ← hrest]
      rfl

theorem Group.conf_texts {g : Group} (hg : ∀ r ∈ g.entries, Splits r) :
    g.conf.texts = g.name.take (nameCharNumMax - 1) :: g.entries := by
  have hjoin : g.entries.map (fun r => (splitColon r).1 ++ 58 :: (splitColon r).2) = g.entries := by
    rw [List.map_congr_left fun r hr => (hg r hr).join.1, List.map_id']
  simp only [Conf.texts, Group.conf, List.map_map]
  exact congrArg _ hjoin

/-- No name was cut behind a space or a carriage return. -/
def NameEnds (c : Conf) : Prop := ∀ b, c.name.getLast? = some b → b ≠ 32 ∧ b ≠ 13

theorem PlainText.cut {t : List Byte} (h : PlainText t) (hend : ∀ b, (t.take 31).getLast? = some b → b ≠ 32 ∧ b ≠ 13) :
    PlainText (t.take 31) where
  nulFree := h.nulFree.take 31
  lf := fun hmem => h.lf (List.mem_of_mem_take hmem)
  ne := by
    intro hnil
    cases List.take_eq_nil_iff.mp hnil with
    | inl h0 => cases h0
    | inr h0 => exact h.ne h0
  first := by
    have hf := h.first
    cases t with
    | nil => exact hf
    | cons b t => exact hf
  comment := by
    rw [List.take_take]
    exact h.comment
  last := hend

theorem Group.conf_ok {g : Group} (hplain : ∀ r ∈ g.records, PlainText r) (hg : ∀ r ∈ g.entries, Splits r)
    (hend : NameEnds g.conf) : g.conf.Ok where
  name := by
    have hlen := List.length_take_le (nameCharNumMax - 1) g.name
    exact Nat.lt_of_le_of_lt hlen (by decide)
  pair := by
    intro p hp
    obtain ⟨r, hr, rfl⟩ := List.mem_map.mp hp
    have hj := (hg r hr).join
    exact ⟨hj.2.1, hj.2.2.1, hj.2.2.2⟩
  text := by
    intro t ht
    rw [Group.conf_texts hg] at ht
    cases List.mem_cons.mp ht with
    | inl he =>
      rw [he]
      exact (hplain g.name List.mem_cons_self).cut hend
    | inr hr => exact hplain t (List.mem_cons_of_mem g.name hr)

theorem joinGroups_cut_length (trail : Bool) {gs : List Group} (hg : ∀ g ∈ gs, ∀ r ∈ g.entries, Splits r) :
    (encode (joinGroups false (gs.map fun g => g.conf.group))).length ≤ (encode (joinGroups trail gs)).length := by
  have hrec : ∀ g ∈ gs, (encode g.conf.group.records).length ≤ (encode g.records).length := by
    intro g hgm
    rw [Conf.group_records, Group.conf_texts (hg g hgm), Group.records, encode_cons, encode_cons]
    simp only [List.length_append, List.length_cons, List.length_take]
    omega
  induction gs with
  | nil => simp [joinGroups, encode]
  | cons g gs ih =>
    have hhead := hrec g List.mem_cons_self
    by_cases hgs : gs = []
    · subst hgs
      simp only [List.map_cons, List.map_nil, joinGroups, encode_append, List.length_append]
      simp only [Bool.false_eq_true, if_false, encode, List.flatMap_nil, List.length_nil] at hhead ⊢
      omega
    · have htail := ih (fun x hx => hg x (List.mem_cons_of_mem g hx)) fun x hx => hrec x (List.mem_cons_of_mem g hx)
      rw [List.map_cons, joinGroups_cons false _ (by simpa using hgs), joinGroups_cons trail g hgs]
      simp only [encode_append, encode_cons, List.length_append, List.length_cons]
      omega

theorem meaning_read {text : List Byte} {confs : List Conf} (h : meaning text = .read confs) :
    ∃ trail gs, recordsOf false text = joinGroups trail gs ∧ gs ≠ [] ∧ (∀ g ∈ gs, ∀ r ∈ g.entries, Splits r) ∧
      (∀ g ∈ gs, ∀ r ∈ g.records, PlainText r) ∧ confs = gs.map Group.conf := by
  obtain ⟨trail, gs, hok, hrecs⟩ := (recordsOf_wellFormed text).groups
  have hsec : sections (recordsOf false text) = gs := by rw [hrecs, sections_join trail hok]
  unfold meaning meaningOf at h
  rw [hsec] at h
  by_cases hnil : gs = []
  · rw [if_pos hnil] at h
    cases h
  · rw [if_neg hnil] at h
    cases hbad : gs.any Group.bad with
    | true =>
      rw [if_pos hbad] at h
      cases h
    | false =>
      rw [if_neg (by simp [hbad])] at h
      refine ⟨trail, gs, hrecs, hnil, any_bad_iff.mp hbad, ?_, (ConfResult.read.inj h).symm⟩
      intro g hg r hr
      obtain ⟨hmem, hne⟩ := sections_mem (hsec ▸ hg) r hr
      exact (recordsOf_plain text r hmem).resolve_left hne

/-- The bare lines of sections mean these sections. -/
theorem meaning_canonical {confs : List Conf} (hne : confs ≠ []) (hok : ∀ c ∈ confs, c.Ok)
    (hfit : FitLines ((canonicalLines confs).map Line.bytes)) :
    meaning (Line.file (canonicalLines confs)) = .read confs ∧
      recordsOf false (Line.file (canonicalLines confs)) = joinGroups false (confs.map Conf.group) := by
  have hrecs : recordsOf false (Line.file (canonicalLines confs)) = joinGroups false (confs.map Conf.group) := by
    rw [Line.file, recordsOf_lines hfit, ← canonicalLines_pack hok]
    rfl
  refine ⟨?_, hrecs⟩
  have hsplits : ∀ g ∈ confs.map Conf.group, ∀ r ∈ g.entries, Splits r := by
    intro g hg r hr
    obtain ⟨c, hc, rfl⟩ := List.mem_map.mp hg
    obtain ⟨p, hp, rfl⟩ := List.mem_map.mp hr
    obtain ⟨hk, hcolon, hv⟩ := (hok c hc).pair p hp
    exact ⟨p.1, p.2, rfl, hcolon, hk, hv⟩
  have hback : (confs.map Conf.group).map Group.conf = confs := by
    rw [List.map_map]
    refine (List.map_congr_left fun c hc => ?_).trans (List.map_id confs)
    have hcut : c.name.take (nameCharNumMax - 1) = c.name :=
      List.take_of_length_le (Nat.le_sub_one_of_lt (hok c hc).name)
    have hpairs : (c.pairs.map fun p => p.1 ++ 58 :: p.2).map splitColon = c.pairs := by
      rw [List.map_map]
      refine (List.map_congr_left fun p hp => ?_).trans (List.map_id c.pairs)
      exact splitColon_append ((hok c hc).pair p hp).2.1 p.2
    simp only [Function.comp_apply, Conf.group, Group.conf, hcut, hpairs]
    rfl
  rw [meaning, hrecs, sections_join false (groupsOk_of_confs hok), meaningOf, if_neg (by simpa using hne),
    if_neg (by simp [any_bad_iff.mpr hsplits]), hback]

/-- Every accepted configuration can be written in its bare form: a line for each name and each
entry and one blank line between sections. It is read as the same sections, unless a name was
cut behind a blank or a line would not fit the line buffer. -/
theorem canonical_reads {malloc : Nat → Bool} (hh : MallocHuge malloc) (text : List Byte) (brk : Addr)
    (confs : List Conf) (hc : ReadsConf malloc (some ⟨text, false, false⟩) brk (.read confs))
    (hname : ∀ c ∈ confs, NameEnds c) (hlen : ∀ c ∈ confs, ∀ t ∈ c.texts, t.length ≤ 1021) :
    ReadsConf malloc (some ⟨Line.file (canonicalLines confs), false, false⟩) brk (.read confs) := by
  have hg : Grants malloc (encode (recordsOf false text)).length := by
    by_contra hn
    obtain ⟨buf, _, _, hload, _⟩ := hc
    cases LoadFile.unique hload ((loadFile_pieces malloc text fun _ => hh).2 hn)
  have hm := (reads_meaning hg brk).unique hc
  obtain ⟨trail, gs, hrecs, hne, hsplits, hplain, rfl⟩ := meaning_read hm
  have hok : ∀ c ∈ gs.map Group.conf, c.Ok := by
    intro c hcm
    obtain ⟨g, hgm, rfl⟩ := List.mem_map.mp hcm
    exact Group.conf_ok (hplain g hgm) (hsplits g hgm) (hname _ hcm)
  have hfit : FitLines ((canonicalLines (gs.map Group.conf)).map Line.bytes) := by
    refine Line.fit (canonicalLines_plain hok) ?_
    intro l hl
    obtain rfl | ⟨c, hcm, t, ht, rfl⟩ := canonicalLines_mem l hl
    · simp [Line.bytes]
    · simpa [Line.bytes] using hlen c hcm t ht
  obtain ⟨hmean, hpack⟩ := meaning_canonical (by simpa using hne) hok hfit
  have hsize := joinGroups_cut_length trail hsplits
  rw [← hmean]
  refine reads_meaning (hg.mono ?_) brk
  rw [hpack, hrecs, List.map_map]
  exact hsize

def noisyText : List Byte := [47, 47, 10, 32, 115, 32, 10, 107, 58, 32, 118, 13, 10, 10, 32, 10, 116, 10]

theorem canonical_reads_noisy : ReadsConf smallBlocks
    (some ⟨Line.file (canonicalLines [⟨[115], [([107], [32, 118])]⟩, ⟨[116], []⟩]), false, false⟩) 0
    (.read [⟨[115], [([107], [32, 118])]⟩, ⟨[116], []⟩]) :=
  have hread : ReadsConf smallBlocks (some ⟨noisyText, false, false⟩) 0
      (.read [⟨[115], [([107], [32, 118])]⟩, ⟨[116], []⟩]) :=
    reads_meaning (grants_of_small smallBlocks_small (by decide)) 0
  canonical_reads smallBlocks_huge noisyText 0 [⟨[115], [([107], [32, 118])]⟩, ⟨[116], []⟩] hread
    (by simp [NameEnds]) (by decide)

end TimeTask
