import TimeTask.NodeSim
import TimeTask.Options

/-! palyFiledate: the printout of a configuration that readFile built. -/
namespace TimeTask
open Lib

/-- What printf puts out: text, or a pointer for `%p`. -/
inductive Printed where
  | text (s : List Byte)
  | pointer (p : Option Addr)
deriving DecidableEq, Repr

/-- The loop `for(i=0;i<len;++i) printf("%c",date[i])`. -/
def printChars (dat : List Byte) (date : Nat) : Nat → Nat → Option (List Byte)
  | 0, _ => some []
  | n + 1, i =>
    match dat[date + i]? with
    | none => none
    | some c => (printChars dat date n (i + 1)).map (c :: ·)

/-- The `len` bytes of a mystring, one by one; `none` outside the buffer. -/
def Mystring.print (dat : List Byte) (s : Mystring) : Option (List Byte) :=
  match s.date with
  | none => if s.len ≤ 0 then some [] else none
  | some date => printChars dat date s.len.toNat 0

def Onedate.print (dat : List Byte) (o : Onedate) : Option (List Byte) :=
  (o.key.print dat).bind fun key => (o.value.print dat).map fun value =>
    ascii "  key:" ++ key ++ ascii "\n" ++ ascii "  value:" ++ value ++ ascii "\n"

namespace FileHeap

/-- The inner loop of palyFiledate. -/
def playOnes (dat : List Byte) (h : FileHeap) : Nat → Option Addr → Option (List Printed)
  | _, none => some []
  | 0, some _ => none
  | n + 1, some onetem =>
    match h.oneAt (some onetem) with
    | none => none
    | some (o, next) => (o.print dat).bind fun s => (playOnes dat h n next).map (.text s :: ·)

/-- The outer loop of palyFiledate. -/
def playFiles (dat : List Byte) (h : FileHeap) : Nat → Option Addr → Option (List Printed)
  | _, none => some []
  | 0, some _ => none
  | n + 1, some filetem =>
    match h.fileAt (some filetem) with
    | none => none
    | some (name, date, next) =>
      (playOnes dat h h.brk date).bind fun ones => (playFiles dat h n next).map fun rest =>
        [.text (name ++ ascii "\n"), .text (ascii "--play "), .pointer date, .text (ascii "\n")] ++
          ones ++ rest

/-- palyFiledate on the section list at `p` whose texts lie in the buffer `dat`. -/
def palyFiledate (dat : List Byte) (h : FileHeap) (p : Option Addr) : Option (Int × List Printed) :=
  match p with
  | none => some (-1, [.text (ascii "palyFiledate dat is NULL\n")])
  | some _ => (playFiles dat h h.brk p).map fun out => (0, out)

end FileHeap

def Printed.bytes : Printed → List Byte
  | .text s => s
  | .pointer _ => []

/-- The text of a printout, its pointers left out. -/
def textOf (out : List Printed) : List Byte := out.flatMap Printed.bytes

/-- A section as palyFiledate lists it. -/
def Conf.listing (c : Conf) : List Byte :=
  c.name ++ ascii "\n" ++ ascii "--play " ++ ascii "\n" ++ c.pairs.flatMap fun p =>
    ascii "  key:" ++ p.1 ++ ascii "\n" ++ ascii "  value:" ++ p.2 ++ ascii "\n"

def Onedate.listing (dat : List Byte) (o : Onedate) : List Byte :=
  ascii "  key:" ++ o.key.read dat ++ ascii "\n" ++ ascii "  value:" ++ o.value.read dat ++ ascii "\n"

theorem conf_listing (dat : List Byte) (f : Filedate) : (f.conf dat).listing =
    f.name ++ ascii "\n" ++ ascii "--play " ++ ascii "\n" ++ f.date.flatMap fun e => e.2.listing dat := by
  simp [Conf.listing, Filedate.conf, Onedate.listing, List.flatMap_map]

/-- The bytes of the string lie in the buffer. -/
def Mystring.Inside (dat : List Byte) (s : Mystring) : Prop :=
  ∃ p, s.date = some p ∧ 0 ≤ s.len ∧ p + s.len.toNat ≤ dat.length

def Onedate.Inside (dat : List Byte) (o : Onedate) : Prop := o.key.Inside dat ∧ o.value.Inside dat

theorem printChars_eq {dat : List Byte} {date : Nat} (n : Nat) : ∀ i, date + i + n ≤ dat.length →
    printChars dat date n i = some ((dat.drop (date + i)).take n) := by
  induction n with
  | zero => intro i _; simp [printChars]
  | succ n ih =>
    intro i hi
    have hlt : date + i < dat.length := by omega
    have hrec := ih (i + 1) (by omega)
    rw [printChars, List.getElem?_eq_getElem hlt]
    simp only [hrec, Option.map_some, Option.some.injEq]
    rw [List.drop_eq_getElem_cons hlt, List.take_succ_cons]
    rfl

theorem Mystring.Inside.print {dat : List Byte} {s : Mystring} (h : s.Inside dat) :
    s.print dat = some (s.read dat) := by
  obtain ⟨p, hp, _, hle⟩ := h
  simp only [Mystring.print, Mystring.read, hp]
  exact printChars_eq s.len.toNat 0 (by omega)

theorem Onedate.Inside.print {dat : List Byte} {o : Onedate} (h : o.Inside dat) :
    o.print dat = some (o.listing dat) := by
  simp only [Onedate.print, h.1.print, h.2.print, Option.bind_some, Option.map_some, Onedate.listing]

theorem findColon_bound {l : List Byte} : ∀ {k tt : Nat}, findColon l k = some (some tt) →
    k ≤ tt ∧ tt < k + l.length := by
  induction l with
  | nil => intro k tt h; simp [findColon] at h
  | cons b l ih =>
    intro k tt h
    rw [findColon] at h
    by_cases h0 : b = 0
    · simp [h0] at h
    · rw [if_neg h0] at h
      by_cases h1 : b = 58
      · rw [if_pos h1] at h
        cases h
        simp
      · rw [if_neg h1] at h
        have hrec := ih h
        simp only [List.length_cons]
        omega

theorem strlen_bound {l : List Byte} {n : Nat} (h : strlen l = some n) : n < l.length := by
  rw [strlen, List.findIdx?_eq_some_iff_getElem] at h
  exact h.1

theorem fetchInf_inside {dat : List Byte} {p : Nat} {o : Onedate} (h : fetchInf dat p = some (some o)) :
    o.Inside dat := by
  unfold fetchInf at h
  cases hc : findColon (dat.drop p) 0 with
  | none => simp [hc] at h
  | some res =>
    cases res with
    | none => simp [hc] at h
    | some tt =>
      have hb := (findColon_bound hc).2
      simp only [hc] at h
      by_cases h0 : tt = 0
      · simp [h0] at h
      · rw [if_neg h0] at h
        cases hd : dat[p + tt + 1]? with
        | none => simp [hd] at h
        | some b =>
          simp only [hd] at h
          by_cases hb0 : b = 0
          · simp [hb0] at h
          · rw [if_neg hb0] at h
            cases hlen : strlen (dat.drop (p + tt + 1)) with
            | none => simp [hlen] at h
            | some len =>
              have hl := strlen_bound hlen
              rw [hlen] at h
              cases h
              simp only [List.length_drop] at hb hl
              exact ⟨⟨p, rfl, by simp, by simp; omega⟩, p + tt + 1, rfl, by simp, by simp; omega⟩

/-- All entries read so far lie inside the buffer. -/
def Read.Inside (dat : List Byte) (s : Read) : Prop :=
  (∀ f ∈ s.files, ∀ e ∈ f.2.date, e.2.Inside dat) ∧ ∀ e ∈ s.onehead, e.2.Inside dat

theorem setDate_inside {dat : List Byte} {s : Read} (h : s.Inside dat) :
    ∀ f ∈ setDate s, ∀ e ∈ f.2.date, e.2.Inside dat := by
  cases List.eq_nil_or_concat' s.files with
  | inl hnil =>
    have hset : setDate s = [] := by
      rw [setDate, hnil]
      rfl
    simp [hset]
  | inr hsnoc =>
    obtain ⟨fs, ⟨a, f⟩, hfs⟩ := hsnoc
    have hold := h.1
    rw [hfs] at hold
    rw [setDate_snoc s fs a f hfs]
    intro g hg
    cases List.mem_append.mp hg with
    | inl hg => exact hold g (List.mem_append_left _ hg)
    | inr hg =>
      rw [List.mem_singleton.mp hg]
      exact h.2

theorem Read.Inside.step {dat : List Byte} {s t : Read} (h : s.Inside dat) (hb : readBody dat s = .again t) :
    t.Inside dat := by
  unfold readBody at hb
  cases hd : dat[s.wherenow]? with
  | none => simp [hd] at hb
  | some b =>
    simp only [hd] at hb
    by_cases h0 : b = 0
    · simp [h0] at hb
    · rw [if_neg h0] at hb
      by_cases h32 : b = 32
      · rw [if_pos h32] at hb
        cases hb
        exact ⟨setDate_inside h, h.2⟩
      · rw [if_neg h32] at hb
        cases hl : strlen (dat.drop s.wherenow) with
        | none => simp [hl] at hb
        | some len =>
          simp only [hl] at hb
          by_cases hn : s.isnest = true
          · rw [if_pos hn] at hb
            cases hb
            refine ⟨?_, by simp [Read.newFile]⟩
            intro f hf
            cases List.mem_append.mp hf with
            | inl hf => exact h.1 f hf
            | inr hf => simp [List.mem_singleton.mp hf]
          · rw [if_neg hn] at hb
            cases hf : fetchInf dat s.wherenow with
            | none => simp [hf] at hb
            | some res =>
              cases res with
              | none => simp [hf] at hb
              | some o =>
                simp only [hf] at hb
                cases hb
                refine ⟨h.1, ?_⟩
                intro e he
                cases List.mem_append.mp he with
                | inl he => exact h.2 e he
                | inr he =>
                  rw [List.mem_singleton.mp he]
                  exact fetchInf_inside hf

/-- Every string of a configuration that readFile accepted lies in the buffer. -/
theorem readFile_inside {dat : List Byte} {brk : Addr} {q : ReadResult} (hq : ReadFile (some dat) true brk q)
    {files : List (Addr × Filedate)} (hres : q.res = some files) :
    ∀ f ∈ files, ∀ e ∈ f.2.date, e.2.Inside dat := by
  obtain ⟨s, hgo, hlast⟩ := readFile_last hq
  cases hlast with
  | inr hq2 => simp [hq2] at hres
  | inl hq0 =>
    have hin : s.Inside dat := hgo.keep ⟨by simp [readStart], by simp [readStart]⟩ fun _ _ ha hb => ha.step hb
    simp only [hq0, Option.some.injEq] at hres
    rw [← hres]
    exact setDate_inside hin

theorem playOnes_run {dat : List Byte} {h : FileHeap} {es : List (Addr × Onedate)} {n : Nat}
    {p : Option Addr} (he : OnesAt h p es) (hin : ∀ e ∈ es, e.2.Inside dat) (hn : es.length ≤ n) :
    ∃ out, h.playOnes dat n p = some out ∧ textOf out = es.flatMap fun e => e.2.listing dat := by
  induction es generalizing n p with
  | nil =>
    have hp : p = none := he
    subst hp
    exact ⟨[], by cases n <;> rfl, rfl⟩
  | cons e es ih =>
    obtain ⟨n, rfl⟩ : ∃ k, n = k + 1 := ⟨n - 1, by simp at hn; omega⟩
    obtain ⟨rfl, c, r, hc, rfl, hes⟩ := he
    obtain ⟨out, hout, htext⟩ := ih hes (fun x hx => hin x (List.mem_cons_of_mem e hx)) (by simpa using hn)
    have hprint := (hin e List.mem_cons_self).print
    refine ⟨.text (e.2.listing dat) :: out, ?_, ?_⟩
    · simp only [FileHeap.playOnes, oneAt_one hc, hprint, Option.bind_some, hout, Option.map_some]
    · rw [List.flatMap_cons, ← htext]
      rfl

theorem playFiles_run {dat : List Byte} {h : FileHeap} {fs : List (Addr × Filedate)} {n : Nat}
    {p : Option Addr} (hf : FilesAt h p fs) (hin : ∀ f ∈ fs, ∀ e ∈ f.2.date, e.2.Inside dat)
    (hn : fs.length ≤ n) :
    ∃ out, h.playFiles dat n p = some out ∧ textOf out = fs.flatMap fun f => (f.2.conf dat).listing := by
  induction fs generalizing n p with
  | nil =>
    have hp : p = none := hf
    subst hp
    exact ⟨[], by cases n <;> rfl, rfl⟩
  | cons f fs ih =>
    obtain ⟨n, rfl⟩ : ∃ k, n = k + 1 := ⟨n - 1, by simp at hn; omega⟩
    obtain ⟨rfl, c, r, hc, ⟨d, rfl, hd⟩, hfs⟩ := hf
    obtain ⟨out, hout, htext⟩ := ih hfs (fun x hx => hin x (List.mem_cons_of_mem f hx)) (by simpa using hn)
    obtain ⟨ones, hones, hentries⟩ := playOnes_run hd (hin f List.mem_cons_self) hd.length_le
    refine ⟨[.text (f.2.name ++ ascii "\n"), .text (ascii "--play "), .pointer d, .text (ascii "\n")] ++
      ones ++ out, ?_, ?_⟩
    · simp only [FileHeap.playFiles, fileAt_file hc, hones, Option.bind_some, hout, Option.map_some]
    · rw [List.flatMap_cons, ← htext, conf_listing, ← hentries]
      simp [textOf, Printed.bytes]

theorem buffer_terminated (recs : List (List Byte)) (k : Nat) :
    (encode recs ++ 0 :: List.replicate k 0).getLast? = some 0 := by
  have hz : (0 : Byte) :: List.replicate k 0 = List.replicate k 0 ++ [0] := by
    rw [← List.replicate_succ, List.replicate_succ']
  rw [hz, ← List.append_assoc, List.getLast?_concat]

/-- Whatever configuration readFile accepts, palyFiledate prints exactly its sections, keys and
values, in order, and reads nothing outside the buffer. -/
theorem palyFiledate_lists (recs : List (List Byte)) (hw : WellFormed recs) (hne : recs ≠ []) (k : Nat)
    (h : FileHeap) (r : NodeResult)
    (hr : ReadNodes (some (encode recs ++ 0 :: List.replicate k 0)) true h r) (hret : r.ret = 0) :
    ∃ p out, r.res = some p ∧
      r.heap.palyFiledate (encode recs ++ 0 :: List.replicate k 0) p = some (0, out) ∧
      textOf out = (sections recs).flatMap fun g => g.conf.listing := by
  obtain ⟨q, hq, hout⟩ := readNodes_returned (buffer_terminated recs k) hr
  obtain ⟨q', hq', hgood | hbad⟩ := hw.read (List.replicate k 0) h.brk
  · obtain ⟨_, _, files, hfiles, hconf⟩ := hgood
    have hsame : q = q' := Option.some.inj (Leaves.unique hq hq')
    subst hsame
    have hres := hout.res
    rw [hfiles] at hres
    obtain ⟨p, hp, hat, _⟩ := hres
    obtain ⟨out, hplay, htext⟩ := playFiles_run hat (readFile_inside hq hfiles) hat.length_le
    refine ⟨p, out, hp, ?_, ?_⟩
    · cases p with
      | some a => simp only [FileHeap.palyFiledate, hplay, Option.map_some]
      | none =>
        cases files with
        | nil => exact absurd (List.map_eq_nil_iff.mp hconf.symm) (sections_ne_nil hw hne)
        | cons f fs => exact absurd hat.1 (by simp)
    · rw [htext, ← List.flatMap_map, hconf, List.flatMap_map]
  · have hsame : q = q' := Option.some.inj (Leaves.unique hq hq')
    subst hsame
    rw [hout.ret, hbad.1] at hret
    cases hret

/-- The records "s" and "k:v" are printed as one section with one entry. -/
theorem palyFiledate_lists_short : ∃ r, ReadNodes (some (encode shortRecords ++ 0 :: List.replicate 1 0)) true
      twoCells r ∧ ∃ p out, r.res = some p ∧
    r.heap.palyFiledate (encode shortRecords ++ 0 :: List.replicate 1 0) p = some (0, out) ∧
    textOf out = (sections shortRecords).flatMap fun g => g.conf.listing := by
  have hread : ∃ r, ReadNodes (some (encode shortRecords ++ 0 :: List.replicate 1 0)) true twoCells r ∧
      r.ret = 0 := ⟨_, ⟨3, rfl⟩, rfl⟩
  obtain ⟨r, hr, hret⟩ := hread
  exact ⟨r, hr, palyFiledate_lists shortRecords shortRecords_wellFormed (by decide) 1 twoCells r hr hret⟩

end TimeTask
