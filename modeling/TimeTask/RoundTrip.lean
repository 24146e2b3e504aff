import TimeTask.Pieces
import TimeTask.ReadFile

/-! Configurations and the files that spell them: what loadFile and readFile
together recover from a file. -/
namespace TimeTask
open Lib

/-- A section of a configuration and its key/value pairs. -/
structure Conf where
  name : List Byte
  pairs : List (List Byte × List Byte)
deriving DecidableEq, Repr

/-- The lines 'name' and 'key:value'. -/
def Conf.texts (c : Conf) : List (List Byte) := c.name :: c.pairs.map fun p => p.1 ++ 58 :: p.2

/-- A line that is no comment and has nothing to trim. -/
structure PlainText (t : List Byte) : Prop where
  nulFree : NulFree t
  lf : 10 ∉ t
  ne : t ≠ []
  first : deref t ≠ 32
  comment : t.take 2 ≠ [47, 47]
  last : ∀ b, t.getLast? = some b → b ≠ 32 ∧ b ≠ 13

structure Conf.Ok (c : Conf) : Prop where
  name : c.name.length < nameCharNumMax
  pair : ∀ p ∈ c.pairs, p.1 ≠ [] ∧ 58 ∉ p.1 ∧ p.2 ≠ []
  text : ∀ t ∈ c.texts, PlainText t

/-- A line of a file: indented by spaces, and a blank or text line padded with spaces
and carriage returns. -/
inductive Line where
  | comment (indent : Nat) (body : List Byte)
  | blank (pad : List Byte)
  | text (indent : Nat) (core pad : List Byte)
deriving DecidableEq, Repr

def Line.bytes : Line → List Byte
  | .comment indent body => List.replicate indent 32 ++ 47 :: 47 :: body
  | .blank pad => pad
  | .text indent core pad => List.replicate indent 32 ++ core ++ pad

def Line.core : Line → Option (List Byte)
  | .text _ core _ => some core
  | _ => none

def Line.isComment : Line → Bool
  | .comment _ _ => true
  | _ => false

def Line.isBlank : Line → Bool
  | .blank _ => true
  | _ => false

def IsPad (pad : List Byte) : Prop := ∀ b ∈ pad, b = 32 ∨ b = 13

def Line.Ok : Line → Prop
  | .comment _ body => 10 ∉ body
  | .blank pad => IsPad pad
  | .text _ _ pad => IsPad pad

/-- The sections one after the other, with blank lines behind each. -/
inductive Layout : List Conf → List Line → Prop
  | last {c : Conf} {ls bs : List Line} (hc : ls.map Line.core = c.texts.map some)
      (hb : ∀ b ∈ bs, b.isBlank = true) : Layout [c] (ls ++ bs)
  | cons {c : Conf} {cs : List Conf} {ls bs rest : List Line}
      (hc : ls.map Line.core = c.texts.map some) (hne : bs ≠ [])
      (hb : ∀ b ∈ bs, b.isBlank = true) (hr : Layout cs rest) : Layout (c :: cs) (ls ++ (bs ++ rest))

/-- The lines spell the sections; comments may stand anywhere. -/
structure Renders (confs : List Conf) (lines : List Line) : Prop where
  ok : ∀ l ∈ lines, l.Ok
  layout : ∃ bs rest, lines.filter (fun l => !l.isComment) = bs ++ rest ∧
    (∀ b ∈ bs, b.isBlank = true) ∧ Layout confs rest

def Line.file (lines : List Line) : List Byte := fileOf (lines.map Line.bytes)

/-- The room the lines take in the buffer: each text and its NUL, and a separator of two
bytes for the first blank line behind a text. -/
def packedSize : Bool → List Line → Nat
  | _, [] => 0
  | iswrite, .comment _ _ :: ls => packedSize iswrite ls
  | iswrite, .blank _ :: ls => (if iswrite then 2 else 0) + packedSize false ls
  | _, .text _ core _ :: ls => core.length + 1 + packedSize true ls

def Mystring.read (buf : List Byte) (s : Mystring) : List Byte :=
  match s.date with
  | none => []
  | some p => (buf.drop p).take s.len.toNat

/-- The section that a filedate of the buffer stands for. -/
def Filedate.conf (buf : List Byte) (f : Filedate) : Conf where
  name := f.name
  pairs := f.date.map fun o => (o.2.key.read buf, o.2.value.read buf)

theorem rdropWhile_pad (s pad : List Byte) (h : IsPad pad) :
    (s ++ pad).rdropWhile isTail = s.rdropWhile isTail := by
  induction pad using List.reverseRecOn with
  | nil => simp
  | append_singleton pad b ih =>
    have hb : isTail b = true := by
      cases h b (by simp) with
      | inl h32 => simp [isTail, h32]
      | inr h13 => simp [isTail, h13]
    rw [← List.append_assoc, List.rdropWhile_concat_pos isTail _ b hb]
    exact ih fun x hx => h x (by simp [hx])

theorem rdropWhile_keep (s t : List Byte) {b : Byte} (hb : isTail b = false) :
    (s ++ b :: t).rdropWhile isTail = s ++ b :: t.rdropWhile isTail := by
  induction t using List.reverseRecOn with
  | nil =>
    rw [List.rdropWhile_concat_neg isTail s b (by simp [hb])]
    simp
  | append_singleton t x ih =>
    have hassoc : s ++ b :: (t ++ [x]) = (s ++ b :: t) ++ [x] := by simp
    rw [hassoc]
    by_cases hx : isTail x = true
    · rw [List.rdropWhile_concat_pos isTail _ x hx, ih, List.rdropWhile_concat_pos isTail t x hx]
    · rw [List.rdropWhile_concat_neg isTail _ x hx, List.rdropWhile_concat_neg isTail t x hx]
      simp

theorem dropWhile_spaces (n : Nat) (t : List Byte) :
    (List.replicate n 32 ++ t).dropWhile (· == 32) = t.dropWhile (· == 32) := by
  induction n with
  | zero => simp
  | succ n ih =>
    rw [List.replicate_succ, List.cons_append, List.dropWhile_cons_of_pos (by simp), ih]

theorem cstring_append {s t : List Byte} (h : NulFree s) : cstring (s ++ t) = s ++ cstring t := by
  rw [cstring, List.takeWhile_append_of_pos]
  · rfl
  · intro b hb
    simpa using h b hb

theorem nulFree_spaces (n : Nat) : NulFree (List.replicate n 32) := by
  intro b hb
  obtain ⟨_, rfl⟩ := List.mem_replicate.mp hb
  decide

theorem IsPad.nulFree {pad : List Byte} (h : IsPad pad) : NulFree pad := by
  intro b hb
  rcases h b hb with rfl | rfl <;> decide

theorem PlainText.trim {t : List Byte} (h : PlainText t) (indent : Nat) {pad : List Byte}
    (hp : IsPad pad) : TimeTask.trim (List.replicate indent 32 ++ t ++ pad) = t := by
  obtain ⟨s, b, hsb⟩ := List.eq_nil_or_concat t |>.resolve_left h.ne
  rw [List.concat_eq_append] at hsb
  have hlast := h.last b (by simp [hsb])
  have hb10 : b ≠ 10 := by
    rintro rfl
    exact h.lf (by simp [hsb])
  have hb : isTail b = false := by
    simp [isTail, hlast.1, hlast.2, hb10]
  rw [TimeTask.trim, rdropWhile_pad _ _ hp, hsb, ← List.append_assoc,
    List.rdropWhile_concat_neg isTail _ b (by simp [hb]), List.append_assoc, dropWhile_spaces, ← hsb]
  obtain ⟨c, r, rfl⟩ := List.exists_cons_of_ne_nil h.ne
  have hc : c ≠ 32 := by simpa [deref] using h.first
  simp [hc]

theorem lineText_line {l : Line} (hl : l.Ok) (hc : ∀ t, l.core = some t → PlainText t) :
    match l with
    | .comment _ _ => (lineText l.bytes).take 2 = [47, 47]
    | .blank _ => lineText l.bytes = []
    | .text _ core _ => lineText l.bytes = core := by
  cases l with
  | comment indent body =>
    have hb : isTail 47 = false := rfl
    have hassoc : List.replicate indent 32 ++ 47 :: 47 :: body =
        (List.replicate indent 32 ++ [47, 47]) ++ body := by simp
    have hnul : NulFree (List.replicate indent 32 ++ [47, 47]) := by
      intro b hb
      rcases List.mem_append.mp hb with hb | hb
      · exact nulFree_spaces indent b hb
      · simp at hb
        subst hb
        decide
    simp only [Line.bytes, lineText]
    rw [hassoc, cstring_append hnul, List.append_assoc, TimeTask.trim]
    have hkeep := rdropWhile_keep (List.replicate indent 32 ++ [47]) (cstring body) hb
    simp only [List.append_assoc, List.cons_append, List.nil_append] at hkeep ⊢
    rw [hkeep, dropWhile_spaces]
    rfl
  | blank pad =>
    have hp : IsPad pad := hl
    have htrim := rdropWhile_pad [] pad hp
    simp only [Line.bytes, lineText, cstring_eq hp.nulFree, TimeTask.trim]
    rw [List.nil_append] at htrim
    simp [htrim]
  | text indent core pad =>
    have hp : IsPad pad := hl
    have ht := hc core rfl
    have hnul : NulFree (List.replicate indent 32 ++ core ++ pad) := by
      intro b hb
      simp only [List.mem_append] at hb
      rcases hb with (hb | hb) | hb
      · exact nulFree_spaces indent b hb
      · exact ht.nulFree b hb
      · exact hp.nulFree b hb
    simp only [Line.bytes, lineText, cstring_eq hnul]
    exact ht.trim indent hp

def PlainLines (lines : List Line) : Prop :=
  ∀ l ∈ lines, l.Ok ∧ ∀ t, l.core = some t → PlainText t

def Line.texts (lines : List Line) : List (List Byte) := (lines.map Line.bytes).map lineText

theorem packText_comment (w : Bool) {t : List Byte} (h : t.take 2 = [47, 47]) :
    packText w t = (none, w) := by
  simp [packText, h]

theorem packText_plain (w : Bool) {t : List Byte} (h : PlainText t) : packText w t = (some t, true) := by
  simp [packText, h.comment, h.ne]

theorem packTexts_line (w : Bool) (l : Line) (lines : List Line)
    (h : PlainLines (l :: lines)) : packTexts w (Line.texts (l :: lines)) =
      match l with
      | .comment _ _ => packTexts w (Line.texts lines)
      | .blank _ => (if w then [[32]] else []) ++ packTexts false (Line.texts lines)
      | .text _ core _ => core :: packTexts true (Line.texts lines) := by
  obtain ⟨hl, hc⟩ := h l (by simp)
  have htext := lineText_line hl hc
  simp only [Line.texts, List.map_cons, packTexts]
  cases l with
  | comment indent body => simp [packText_comment w htext]
  | blank pad =>
    simp only at htext
    rw [htext]
    cases w <;> simp [packText]
  | text indent core pad =>
    simp only at htext
    rw [htext, packText_plain w (hc core rfl)]
    rfl

theorem PlainLines.tail {l : Line} {lines : List Line} (h : PlainLines (l :: lines)) :
    PlainLines lines := fun x hx => h x (List.mem_cons_of_mem l hx)

theorem packTexts_filter (lines : List Line) : ∀ w, PlainLines lines →
    packTexts w (Line.texts lines) =
      packTexts w (Line.texts (lines.filter fun l => !l.isComment)) := by
  induction lines with
  | nil => exact fun w _ => rfl
  | cons l lines ih =>
    intro w h
    rw [packTexts_line w l lines h]
    have hf : PlainLines (l :: lines.filter fun l => !l.isComment) := by
      intro x hx
      rcases List.mem_cons.mp hx with rfl | hx
      · exact h x (by simp)
      · exact h x (List.mem_cons_of_mem l (List.mem_filter.mp hx).1)
    have hi := fun w => ih w h.tail
    have hfl := fun w => packTexts_line w l _ hf
    cases l with
    | comment indent body => exact hi w
    | blank pad =>
      have hfilter : (Line.blank pad :: lines).filter (fun l => !l.isComment) =
          .blank pad :: lines.filter fun l => !l.isComment := rfl
      rw [hfilter, hfl w]
      simp only [hi]
    | text indent core pad =>
      have hfilter : (Line.text indent core pad :: lines).filter (fun l => !l.isComment) =
          .text indent core pad :: lines.filter fun l => !l.isComment := rfl
      rw [hfilter, hfl w]
      simp only [hi]

theorem packTexts_blanks (bs rest : List Line) (hb : ∀ b ∈ bs, b.isBlank = true) : ∀ w,
    PlainLines (bs ++ rest) → packTexts w (Line.texts (bs ++ rest)) =
      if bs = [] then packTexts w (Line.texts rest)
      else (if w then [[32]] else []) ++ packTexts false (Line.texts rest) := by
  induction bs with
  | nil => exact fun w _ => rfl
  | cons b bs ih =>
    intro w h
    have hl := packTexts_line w b (bs ++ rest) h
    have hi := ih (fun x hx => hb x (List.mem_cons_of_mem b hx)) false h.tail
    have hbb := hb b (by simp)
    cases b with
    | comment indent body => simp [Line.isBlank] at hbb
    | text indent core pad => simp [Line.isBlank] at hbb
    | blank pad =>
      rw [List.cons_append, hl]
      simp only [hi]
      by_cases hn : bs = []
      · simp [hn]
      · simp [hn]

theorem packTexts_texts (ls rest : List Line) : ∀ (ts : List (List Byte)) (w : Bool),
    ls.map Line.core = ts.map some → ts ≠ [] → PlainLines (ls ++ rest) →
    packTexts w (Line.texts (ls ++ rest)) = ts ++ packTexts true (Line.texts rest) := by
  induction ls with
  | nil =>
    intro ts w hts hne
    simp at hts
    exact absurd hts hne
  | cons l ls ih =>
    intro ts w hts hne h
    obtain ⟨t, ts, rfl⟩ := List.exists_cons_of_ne_nil hne
    simp only [List.map_cons, List.cons.injEq] at hts
    have hl := packTexts_line w l (ls ++ rest) h
    cases l with
    | comment indent body => simp [Line.core] at hts
    | blank pad => simp [Line.core] at hts
    | text indent core pad =>
      have hcore : core = t := by simpa [Line.core] using hts.1
      subst hcore
      rw [List.cons_append, hl]
      simp only
      by_cases hn : ts = []
      · subst hn
        have hls : ls = [] := by simpa using hts.2
        subst hls
        simp
      · rw [ih ts true hts.2 hn h.tail, List.cons_append]

def Conf.group (c : Conf) : Group := ⟨c.name, c.pairs.map fun p => p.1 ++ 58 :: p.2⟩

theorem Conf.group_records (c : Conf) : c.group.records = c.texts := rfl

theorem PlainLines.append {a b : List Line} (h : PlainLines (a ++ b)) : PlainLines b :=
  fun x hx => h x (List.mem_append_right a hx)

/-- The packed form of the sections of a file. -/
theorem layout_pack {confs : List Conf} {lines : List Line} (h : Layout confs lines) :
    PlainLines lines → ∃ trail, packTexts false (Line.texts lines) =
      joinGroups trail (confs.map Conf.group) := by
  induction h with
  | @last c ls bs hc hb =>
    intro hp
    have htexts := packTexts_texts ls bs c.texts false hc (by simp [Conf.texts]) hp
    have hblank := packTexts_blanks bs [] hb true (by simpa using hp.append)
    rw [List.append_nil] at hblank
    have hnil : ∀ w, packTexts w (Line.texts []) = [] := fun _ => rfl
    refine ⟨decide (bs ≠ []), ?_⟩
    rw [htexts, hblank, hnil, hnil, List.map_singleton, joinGroups, Conf.group_records]
    by_cases hn : bs = [] <;> simp [hn]
  | @cons c cs ls bs rest hc hne hb hr ih =>
    intro hp
    obtain ⟨trail, htrail⟩ := ih hp.append.append
    have htexts := packTexts_texts ls (bs ++ rest) c.texts false hc (by simp [Conf.texts]) hp
    have hblank := packTexts_blanks bs rest hb true hp.append
    have hcs : cs ≠ [] := by
      cases hr <;> simp
    refine ⟨trail, ?_⟩
    rw [htexts, hblank, if_neg hne, htrail]
    rw [List.map_cons, joinGroups_cons trail c.group (by simpa using hcs), Conf.group_records]
    simp

theorem packedSize_eq (lines : List Line) : ∀ w, PlainLines lines →
    packedSize w lines = (encode (packTexts w (Line.texts lines))).length := by
  induction lines with
  | nil => exact fun w _ => rfl
  | cons l lines ih =>
    intro w h
    have hi := fun w => ih w h.tail
    rw [packTexts_line w l lines h]
    cases l with
    | comment indent body => exact hi w
    | blank pad =>
      simp only [packedSize, hi]
      cases w <;> simp [encode_cons]
      omega
    | text indent core pad =>
      simp only [packedSize, hi, encode_cons]
      simp
      omega

theorem entryAt_pair (p : Nat) {k v : List Byte} (hk : k ≠ []) (hc : 58 ∉ k) (hv : v ≠ []) :
    entryAt p (k ++ 58 :: v) =
      some ⟨⟨some p, k.length⟩, ⟨some (p + k.length + 1), v.length⟩⟩ := by
  have hfind : (k ++ 58 :: v).findIdx? (· == 58) = some k.length := by
    rw [List.findIdx?_append]
    have hnone : k.findIdx? (· == 58) = none := by
      rw [List.findIdx?_eq_none_iff]
      intro b hb
      have hne : b ≠ 58 := by
        rintro rfl
        exact hc hb
      simpa using hne
    simp [hnone, List.findIdx?_cons]
  have hpos : ¬ (k.length = 0 ∨ k.length + 1 = (k ++ 58 :: v).length) := by
    have h₁ := List.length_pos_of_ne_nil hk
    have h₂ := List.length_pos_of_ne_nil hv
    simp only [List.length_append, List.length_cons]
    omega
  have hlen : (k ++ 58 :: v).length - k.length - 1 = v.length := by
    simp only [List.length_append, List.length_cons]
    omega
  simp only [entryAt, hfind, hpos, if_false, hlen]

theorem entries_read {buf : List Byte} (pairs : List (List Byte × List Byte)) :
    ∀ (p : Nat) (a : Addr) (z : List Byte),
      buf.drop p = encode (pairs.map fun q => q.1 ++ 58 :: q.2) ++ z →
      (∀ q ∈ pairs, q.1 ≠ [] ∧ 58 ∉ q.1 ∧ q.2 ≠ []) →
      ∃ es, entriesAt p a (pairs.map fun q => q.1 ++ 58 :: q.2) = some es ∧
        es.map (fun o => (o.2.key.read buf, o.2.value.read buf)) = pairs := by
  induction pairs with
  | nil => exact fun p a z _ _ => ⟨[], rfl, rfl⟩
  | cons q pairs ih =>
    intro p a z hd hok
    obtain ⟨hk, hc, hv⟩ := hok q (by simp)
    rw [List.map_cons, encode_cons, List.append_assoc, List.cons_append] at hd
    obtain ⟨es, hes, hread⟩ := ih (p + (q.1 ++ 58 :: q.2).length + 1) (a + 1) z (drop_next hd)
      fun x hx => hok x (List.mem_cons_of_mem q hx)
    have hentry := entryAt_pair p hk hc hv
    have hkey : (buf.drop p).take q.1.length = q.1 := by
      rw [hd]
      simp
    have hval : (buf.drop (p + q.1.length + 1)).take q.2.length = q.2 := by
      rw [Nat.add_assoc, ← List.drop_drop, hd]
      simp
    refine ⟨(a, ⟨⟨some p, q.1.length⟩, ⟨some (p + q.1.length + 1), q.2.length⟩⟩) :: es, ?_, ?_⟩
    · rw [List.map_cons, entriesAt, hentry]
      simp only [hes, Option.map_some]
    · rw [List.map_cons, hread]
      simp [Mystring.read, hkey, hval]

/-- The section with its name cut to the name field. -/
def Conf.cut (c : Conf) : Conf := { c with name := c.name.take (nameCharNumMax - 1) }

theorem Conf.cut_eq {c : Conf} (h : c.name.length < nameCharNumMax) : c.cut = c := by
  have htake : c.name.take (nameCharNumMax - 1) = c.name := List.take_of_length_le (Nat.le_pred_of_lt h)
  rw [Conf.cut, htake]

/-- readFile's sections spell the configuration they were packed from, names cut. -/
theorem groups_read (buf : List Byte) (trail : Bool) (confs : List Conf) :
    ∀ (p : Nat) (a : Addr) (z : List Byte),
      buf.drop p = encode (joinGroups trail (confs.map Conf.group)) ++ z →
      (∀ c ∈ confs, ∀ q ∈ c.pairs, q.1 ≠ [] ∧ 58 ∉ q.1 ∧ q.2 ≠ []) →
      ∃ files, groupsAt p a (confs.map Conf.group) = some files ∧
        files.map (fun f => f.2.conf buf) = confs.map Conf.cut := by
  induction confs with
  | nil => exact fun p a z _ _ => ⟨[], rfl, rfl⟩
  | cons c confs ih =>
    intro p a z hd hok
    have hc := hok c (by simp)
    have hsplit : ∃ y, buf.drop p = encode c.group.records ++ y ∧ (confs ≠ [] →
        y = 32 :: 0 :: (encode (joinGroups trail (confs.map Conf.group)) ++ z)) := by
      by_cases hn : confs = []
      · subst hn
        rw [List.map_singleton, joinGroups, encode_append, List.append_assoc] at hd
        exact ⟨_, hd, fun h => absurd rfl h⟩
      · rw [List.map_cons, joinGroups_cons trail c.group (by simpa using hn), encode_append,
          encode_cons, List.append_assoc] at hd
        exact ⟨_, hd, fun _ => by simp⟩
    obtain ⟨y, hy, hrest⟩ := hsplit
    have hname : buf.drop p = c.name ++ 0 :: (encode c.group.entries ++ y) := by
      rw [hy, Group.records, encode_cons]
      simp [Conf.group]
    obtain ⟨es, hes, hread⟩ := entries_read c.pairs (p + c.name.length + 1) (a + 1) y
      (drop_next hname) hc
    have hfile : Filedate.conf buf ⟨c.name.take (nameCharNumMax - 1), es⟩ = c.cut := by
      simp [Filedate.conf, Conf.cut, hread]
    have hnext : ∃ files, groupsAt (p + (encode c.group.records).length + 2)
        (a + 1 + c.group.entries.length) (confs.map Conf.group) = some files ∧
        files.map (fun f => f.2.conf buf) = confs.map Conf.cut := by
      by_cases hn : confs = []
      · subst hn
        exact ⟨[], rfl, rfl⟩
      · apply ih _ _ z _ fun x hx => hok x (List.mem_cons_of_mem c hx)
        rw [Nat.add_assoc, ← List.drop_drop, hy, hrest hn]
        simp [List.drop_append]
    obtain ⟨files, hfiles, hconfs⟩ := hnext
    refine ⟨(a, ⟨c.name.take (nameCharNumMax - 1), es⟩) :: files, ?_, ?_⟩
    · have hes' : entriesAt (p + c.group.name.length + 1) (a + 1) c.group.entries = some es := hes
      have hname' : c.group.name = c.name := rfl
      rw [List.map_cons, groupsAt, hes']
      simp only [hfiles, Option.map_some, hname']
    · rw [List.map_cons, hconfs, hfile, List.map_cons]

theorem PlainText.recordOk {t : List Byte} (h : PlainText t) : RecordOk t := ⟨h.nulFree, h.ne, h.first⟩

theorem groupsOk_of_confs {confs : List Conf} (h : ∀ c ∈ confs, c.Ok) :
    GroupsOk (confs.map Conf.group) := by
  intro g hg r hr
  obtain ⟨c, hc, rfl⟩ := List.mem_map.mp hg
  exact ((h c hc).text r hr).recordOk

theorem Layout.core_mem {confs : List Conf} {lines : List Line} (h : Layout confs lines) :
    ∀ l ∈ lines, ∀ t, l.core = some t → ∃ c ∈ confs, t ∈ c.texts := by
  have hblank : ∀ (l : Line) (t : List Byte), l.isBlank = true → l.core ≠ some t := by
    intro l t hb
    cases l <;> simp [Line.isBlank, Line.core] at hb ⊢
  have hlines : ∀ (c : Conf) (ls : List Line), ls.map Line.core = c.texts.map some →
      ∀ l ∈ ls, ∀ t, l.core = some t → t ∈ c.texts := by
    intro c ls hc l hl t ht
    have hm : some t ∈ c.texts.map some := by
      rw [← hc, ← ht]
      exact List.mem_map_of_mem hl
    simpa using hm
  induction h with
  | @last c ls bs hc hb =>
    intro l hl t ht
    cases List.mem_append.mp hl with
    | inl hl => exact ⟨c, by simp, hlines c ls hc l hl t ht⟩
    | inr hl => exact absurd ht (hblank l t (hb l hl))
  | @cons c cs ls bs rest hc hne hb hr ih =>
    intro l hl t ht
    rw [List.mem_append, List.mem_append] at hl
    cases hl with
    | inl hl => exact ⟨c, by simp, hlines c ls hc l hl t ht⟩
    | inr hl =>
      cases hl with
      | inl hl => exact absurd ht (hblank l t (hb l hl))
      | inr hl =>
        obtain ⟨d, hd, hm⟩ := ih l hl t ht
        exact ⟨d, List.mem_cons_of_mem c hd, hm⟩

theorem Renders.plain {confs : List Conf} {lines : List Line} (h : Renders confs lines)
    (hok : ∀ c ∈ confs, c.Ok) : PlainLines lines := by
  intro l hl
  refine ⟨h.ok l hl, fun t ht => ?_⟩
  obtain ⟨bs, rest, hsplit, hb, hlay⟩ := h.layout
  have hcomment : l.isComment = false := by
    cases l <;> simp [Line.core, Line.isComment] at ht ⊢
  have hm : l ∈ bs ++ rest := by
    rw [← hsplit]
    exact List.mem_filter.mpr ⟨hl, by simp [hcomment]⟩
  cases List.mem_append.mp hm with
  | inl hm =>
    have hbl := hb l hm
    cases l <;> simp [Line.isBlank, Line.core] at hbl ht
  | inr hm =>
    obtain ⟨c, hc, htc⟩ := hlay.core_mem l hm t ht
    exact (hok c hc).text t htc

/-- Whatever the noise, the packed form is that of the bare sections. -/
theorem Renders.pack {confs : List Conf} {lines : List Line} (h : Renders confs lines)
    (hok : ∀ c ∈ confs, c.Ok) : ∃ trail, packTexts false (Line.texts lines) =
      joinGroups trail (confs.map Conf.group) := by
  have hplain := h.plain hok
  obtain ⟨bs, rest, hsplit, hb, hlay⟩ := h.layout
  have hfilter : PlainLines (bs ++ rest) := by
    rw [← hsplit]
    exact fun l hl => hplain l (List.mem_filter.mp hl).1
  obtain ⟨trail, htrail⟩ := layout_pack hlay hfilter.append
  refine ⟨trail, ?_⟩
  rw [packTexts_filter lines false hplain, hsplit, packTexts_blanks bs rest hb false hfilter, htrail]
  simp

theorem Line.fit {lines : List Line} (h : PlainLines lines)
    (hlen : ∀ l ∈ lines, l.bytes.length ≤ 1021) : FitLines (lines.map Line.bytes) := by
  intro x hx
  obtain ⟨l, hl, rfl⟩ := List.mem_map.mp hx
  refine ⟨hlen l hl, ?_⟩
  obtain ⟨hok, hcore⟩ := h l hl
  have hpad : ∀ pad, IsPad pad → 10 ∉ pad := by
    intro pad hp hm
    cases hp 10 hm with
    | inl h32 => exact absurd h32 (by decide)
    | inr h13 => exact absurd h13 (by decide)
  cases l with
  | comment indent body =>
    have hb : 10 ∉ body := hok
    simp [Line.bytes, List.mem_replicate, hb]
  | blank pad => exact hpad pad hok
  | text indent core pad =>
    have ht := (hcore core rfl).lf
    have hp := hpad pad hok
    simp [Line.bytes, List.mem_replicate, ht, hp]

/-- Reading back a configuration: loadFile and readFile recover every section, in order and
with its pairs in order, from every rendering whose packed form an int can count. -/
theorem readFile_loadFile {malloc : Nat → Bool} (hm : MallocSmall malloc) (confs : List Conf)
    (hne : confs ≠ []) (hok : ∀ c ∈ confs, c.Ok) (lines : List Line) (hr : Renders confs lines)
    (hlen : ∀ l ∈ lines, l.bytes.length ≤ 1021) (hsize : packedSize false lines < packLimit)
    (brk : Addr) : ∃ buf q files,
      LoadFile malloc (some ⟨Line.file lines, false, false⟩) (some buf) ∧
      ReadFile (some buf) true brk q ∧ q.ret = 0 ∧ q.res = some files ∧
      files.map (fun f => f.2.conf buf) = confs := by
  have hplain := hr.plain hok
  obtain ⟨trail, hpack⟩ := hr.pack hok
  rw [packedSize_eq lines false hplain, hpack] at hsize
  have hload := loadFile_lines hm (lines.map Line.bytes) (Line.fit hplain hlen)
    (fun hbig => by
      have hp : packTexts false ((lines.map Line.bytes).map lineText) = _ := hpack
      rw [hp] at hbig
      omega)
  have hpack' : packTexts false ((lines.map Line.bytes).map lineText) = _ := hpack
  rw [hpack'] at hload
  have hgs : confs.map Conf.group ≠ [] := by simpa using hne
  have hpos : (encode (joinGroups trail (confs.map Conf.group))).length ≠ 0 := by
    obtain ⟨c, cs, rfl⟩ := List.exists_cons_of_ne_nil hne
    obtain ⟨y, hy, _⟩ := after_group trail c.group (cs.map Conf.group) []
    intro h0
    have hnil := List.eq_nil_of_length_eq_zero h0
    rw [List.map_cons] at hnil
    rw [hnil, Group.records, encode_cons] at hy
    have hl := congrArg List.length hy
    have hcn := List.length_pos_of_ne_nil ((hok c (by simp)).text c.name (by simp [Conf.texts])).ne
    simp [Conf.group] at hl
    omega
  simp only [loaded, hpos, false_or, Nat.not_le.mpr hsize, if_false] at hload
  generalize hn : 1024 * ((encode (joinGroups trail (confs.map Conf.group))).length / 1024 + 1) -
    (encode (joinGroups trail (confs.map Conf.group))).length = n at hload
  obtain ⟨k, rfl⟩ : ∃ k, n = k + 1 := ⟨n - 1, by omega⟩
  rw [List.replicate_succ] at hload
  obtain ⟨q, hq, hres⟩ := readFile_groups trail _ hgs rfl (groupsOk_of_confs hok) brk
    (z := List.replicate k 0)
  obtain ⟨files, hfiles, hconfs⟩ := groups_read _ trail confs 0 brk (0 :: List.replicate k 0)
    (by rw [List.drop_zero]) fun c hc => (hok c hc).pair
  have hcut : confs.map Conf.cut = confs := by
    rw [List.map_congr_left fun c hc => Conf.cut_eq (hok c hc).name]
    exact List.map_id _
  rw [hfiles] at hres
  exact ⟨_, q, files, hload, hq, hres.1, hres.2, hconfs.trans hcut⟩

/-- A packed form that reaches the limit is refused, whatever the sections are. -/
theorem loadFile_limit {malloc : Nat → Bool} (hm : MallocSmall malloc) (hh : MallocHuge malloc)
    {lines : List Line} (hplain : PlainLines lines) (hlen : ∀ l ∈ lines, l.bytes.length ≤ 1021)
    (hsize : packLimit ≤ packedSize false lines) :
    LoadFile malloc (some ⟨Line.file lines, false, false⟩) none := by
  rw [packedSize_eq lines false hplain] at hsize
  have hload := loadFile_lines hm (lines.map Line.bytes) (Line.fit hplain hlen) fun _ => hh
  have hnone : loaded (packTexts false ((lines.map Line.bytes).map lineText)) = none := by
    exact if_pos (Or.inr hsize)
  rw [hnone] at hload
  exact hload

/-- One section "a" with `n` pairs "k:v", each on a line of its own. -/
def longConf (n : Nat) : Conf := ⟨[97], List.replicate n ([107], [118])⟩

def Conf.lines (c : Conf) : List Line := c.texts.map fun t => .text 0 t []

theorem longConf_ok (n : Nat) : (longConf n).Ok := by
  have hname : ([97] : List Byte).length < nameCharNumMax := by decide
  refine ⟨hname, fun p hp => ?_, fun t ht => ?_⟩
  · obtain ⟨_, rfl⟩ := List.mem_replicate.mp hp
    decide
  · have hcases : t = [97] ∨ t = [107, 58, 118] := by
      simp only [Conf.texts, longConf, List.map_replicate, List.mem_cons] at ht
      cases ht with
      | inl h => exact Or.inl h
      | inr h => exact Or.inr (List.mem_replicate.mp h).2
    cases hcases with
    | inl h =>
      subst h
      exact ⟨by decide, by decide, by decide, by decide, by decide, by simp⟩
    | inr h =>
      subst h
      exact ⟨by decide, by decide, by decide, by decide, by decide, by simp⟩

theorem Conf.renders (c : Conf) : Renders [c] c.lines := by
  have hcore : c.lines.map Line.core = c.texts.map some := by
    simp [Conf.lines, Line.core]
  refine ⟨fun l hl => ?_, [], c.lines, ?_, by simp, ?_⟩
  · obtain ⟨t, _, rfl⟩ := List.mem_map.mp hl
    intro b hb
    simp at hb
  · rw [List.nil_append, List.filter_eq_self]
    intro l hl
    obtain ⟨t, _, rfl⟩ := List.mem_map.mp hl
    rfl
  · have hlay : Layout [c] (c.lines ++ []) := Layout.last hcore (by simp)
    simpa using hlay

theorem longConf_size (n : Nat) : packedSize false (longConf n).lines = 2 + 4 * n := by
  have hrep : ∀ k w, packedSize w (List.replicate k (Line.text 0 [107, 58, 118] [])) = 4 * k := by
    intro k
    induction k with
    | zero => exact fun w => rfl
    | succ k ih =>
      intro w
      rw [List.replicate_succ, packedSize, ih]
      simp
      omega
  have hlines : (longConf n).lines =
      .text 0 [97] [] :: List.replicate n (.text 0 [107, 58, 118] []) := by
    simp [Conf.lines, Conf.texts, longConf]
  rw [hlines, packedSize, hrep]
  rfl

theorem longConf_fit (n : Nat) : ∀ l ∈ (longConf n).lines, l.bytes.length ≤ 1021 := by
  intro l hl
  obtain ⟨t, ht, rfl⟩ := List.mem_map.mp hl
  simp only [Conf.texts, longConf, List.map_replicate, List.mem_cons] at ht
  cases ht with
  | inl h =>
    subst h
    decide
  | inr h =>
    have he := (List.mem_replicate.mp h).2
    subst he
    decide

/-- With the key "k" and the colon it fills the line buffer. -/
def wideValue : List Byte := List.replicate 1019 118

theorem wideValue_mem {b : Byte} (h : b ∈ wideValue) : b = 118 := (List.mem_replicate.mp h).2

theorem wideValue_length : wideValue.length = 1019 := List.length_replicate

theorem wideValue_ne : wideValue ≠ [] := fun h => by
  have hl := congrArg List.length h
  rw [wideValue_length] at hl
  cases hl

/-- Two sections; the name of the second one fills its array. -/
def mixedConfs : List Conf := [⟨[97], [([107], [118])]⟩, ⟨List.replicate 31 110, [([107], wideValue)]⟩]

/-- The two with comments and blank lines between them, indented and padded. -/
def mixedLines : List Line :=
  [.comment 0 [99], .blank [32], .text 2 [97] [32, 13], .comment 3 [], .text 0 [107, 58, 118] [], .blank [],
    .comment 0 [], .blank [13], .text 1 (List.replicate 31 110) [32], .text 0 (107 :: 58 :: wideValue) [], .blank []]

theorem mixed_plain {t : List Byte} (ht : t = [97] ∨ t = [107, 58, 118] ∨ t = List.replicate 31 110) : PlainText t := by
  have hlast : ∀ x b : Byte, t.getLast? = some x → x ≠ 32 ∧ x ≠ 13 → t.getLast? = some b → b ≠ 32 ∧ b ≠ 13 := by
    intro x b hx hne hb
    rwa [← Option.some.inj (hx.symm.trans hb)]
  obtain rfl | rfl | rfl := ht
  · exact ⟨by decide, by decide, by decide, by decide, by decide, fun b => hlast 97 b rfl (by decide)⟩
  · exact ⟨by decide, by decide, by decide, by decide, by decide, fun b => hlast 118 b rfl (by decide)⟩
  · exact ⟨by decide, by decide, by decide, by decide, by decide, fun b => hlast 110 b rfl (by decide)⟩

theorem mixed_wide : PlainText (107 :: 58 :: wideValue) := by
  have hmem : ∀ b ∈ 107 :: 58 :: wideValue, b = 107 ∨ b = 58 ∨ b = 118 := by
    intro b hb
    simp only [List.mem_cons] at hb
    exact hb.imp_right fun h => h.imp_right wideValue_mem
  refine ⟨fun b hb => ?_, fun hb => ?_, by simp, by simp [deref], by simp, fun b hb => ?_⟩
  · obtain rfl | rfl | rfl := hmem b hb <;> decide
  · have h10 := hmem 10 hb
    revert h10
    decide
  · obtain rfl | rfl | rfl := hmem b (List.mem_of_getLast? hb) <;> decide

theorem mixed_ok : ∀ c ∈ mixedConfs, c.Ok := by
  intro c hc
  simp only [mixedConfs, List.mem_cons, List.not_mem_nil, or_false] at hc
  obtain rfl | rfl := hc
  · refine ⟨by decide, by decide, fun t ht => ?_⟩
    simp only [Conf.texts, List.map_cons, List.map_nil, List.mem_cons, List.not_mem_nil, or_false] at ht
    obtain rfl | rfl := ht
    · exact mixed_plain (Or.inl rfl)
    · exact mixed_plain (Or.inr (Or.inl rfl))
  · refine ⟨by decide, fun p hp => ?_, fun t ht => ?_⟩
    · rw [List.mem_singleton.mp hp]
      exact ⟨by decide, by decide, wideValue_ne⟩
    · simp only [Conf.texts, List.map_cons, List.map_nil, List.mem_cons, List.not_mem_nil, or_false] at ht
      obtain rfl | rfl := ht
      · exact mixed_plain (Or.inr (Or.inr rfl))
      · exact mixed_wide

theorem mixed_renders : Renders mixedConfs mixedLines := by
  refine ⟨fun l hl => ?_, [.blank [32]], _, rfl, by decide, ?_⟩
  · simp only [mixedLines, List.mem_cons, List.not_mem_nil, or_false] at hl
    obtain rfl | rfl | rfl | rfl | rfl | rfl | rfl | rfl | rfl | rfl | rfl := hl
    all_goals simp [Line.Ok, IsPad]
  · have hlast : Layout [⟨List.replicate 31 110, [([107], wideValue)]⟩]
        ([.text 1 (List.replicate 31 110) [32], .text 0 (107 :: 58 :: wideValue) []] ++ [.blank []]) :=
      .last rfl (by decide)
    have hboth : Layout mixedConfs ([.text 2 [97] [32, 13], .text 0 [107, 58, 118] []] ++ ([.blank [], .blank [13]] ++ _)) :=
      .cons rfl (by decide) (by decide) hlast
    exact hboth

/-- The two sections are read back out of them. -/
theorem readFile_loadFile_mixed : ∃ buf q files,
    LoadFile (fun n => decide (n < 2 ^ 63)) (some ⟨Line.file mixedLines, false, false⟩) (some buf) ∧
      ReadFile (some buf) true 0 q ∧ q.ret = 0 ∧ q.res = some files ∧
      files.map (fun f => f.2.conf buf) = mixedConfs := by
  refine readFile_loadFile (fun n hn => ?_) mixedConfs (List.cons_ne_nil _ _) mixed_ok mixedLines mixed_renders ?_ ?_ 0
  · simp only [decide_eq_true_eq]
    omega
  · intro l hl
    simp only [mixedLines, List.mem_cons, List.not_mem_nil, or_false] at hl
    obtain rfl | rfl | rfl | rfl | rfl | rfl | rfl | rfl | rfl | rfl | rfl := hl
    all_goals simp [Line.bytes, wideValue_length]
  · simp [packedSize, mixedLines, packLimit, wideValue_length]

/-- Half a billion pairs in one section: the block would pass the largest int. -/
theorem readFile_loadFile_huge :
    (∀ c ∈ [longConf (2 ^ 29)], c.Ok) ∧ Renders [longConf (2 ^ 29)] (longConf (2 ^ 29)).lines ∧
    (∀ l ∈ (longConf (2 ^ 29)).lines, l.bytes.length ≤ 1021) ∧
    ¬ ∃ buf q, LoadFile (fun n => decide (n < 2 ^ 63))
        (some ⟨Line.file (longConf (2 ^ 29)).lines, false, false⟩) (some buf) ∧
      ReadFile (some buf) true 0 q ∧ q.ret = 0 := by
  have hok : ∀ c ∈ [longConf (2 ^ 29)], c.Ok := by
    intro c hc
    rw [List.mem_singleton.mp hc]
    exact longConf_ok _
  have hr := (longConf (2 ^ 29)).renders
  have hfit := longConf_fit (2 ^ 29)
  refine ⟨hok, hr, hfit, ?_⟩
  intro h
  obtain ⟨buf, _, hload, _⟩ := h
  have hsmall : MallocSmall fun n => decide (n < 2 ^ 63) := by
    intro n hn
    simp only [decide_eq_true_eq]
    omega
  have hhuge : MallocHuge fun n => decide (n < 2 ^ 63) := by
    intro n hn
    simp only [decide_eq_false_iff_not]
    omega
  have hnone := loadFile_limit hsmall hhuge (hr.plain hok) hfit
    (by rw [longConf_size, packLimit]; omega)
  exact absurd (hload.unique hnone) (by simp)

end TimeTask
