import TimeTask.FileHeap

/-! readFile and freeFiledate on the heap do what they do on lists. -/
namespace TimeTask
open Lib

theorem OnesAt.nodup {h : FileHeap} {p : Option Addr} {es : List (Addr × Onedate)} (he : OnesAt h p es) :
    (es.map Prod.fst).Nodup :=
  chain_nodup (spine_seg ConfCell.next (fun _ _ _ hs => by rw [hs]; rfl) he)

theorem OnesAt.length_le {h : FileHeap} {p : Option Addr} {es : List (Addr × Onedate)} (he : OnesAt h p es) :
    es.length ≤ h.brk :=
  h.spine_length_le ConfCell.next (fun _ _ _ hs => by rw [hs]; rfl) he

theorem FilesAt.length_le {h : FileHeap} {p : Option Addr} {fs : List (Addr × Filedate)}
    (hf : FilesAt h p fs) : fs.length ≤ h.brk := by
  refine h.spine_length_le ConfCell.next ?_ hf
  intro c f r hs
  obtain ⟨d, he, _⟩ := hs
  rw [he]
  rfl

theorem freeOnes_run {es : List (Addr × Onedate)} {n : Nat} {h : FileHeap} {p : Option Addr}
    (he : OnesAt h p es) (hn : es.length ≤ n) :
    FileHeap.freeOnes n p p h =
      some (es.map fun o => .freeOne o.1, h.freeAll (es.map Prod.fst)) := by
  induction es generalizing n h p with
  | nil =>
    have hp : p = none := he
    subst hp
    cases n <;> rfl
  | cons e es ih =>
    obtain ⟨n, rfl⟩ : ∃ k, n = k + 1 := ⟨n - 1, by simp at hn; omega⟩
    have hnodup := he.nodup
    obtain ⟨rfl, c, r, hc, rfl, hes⟩ := he
    have hrest : OnesAt (h.free e.1) r es := by
      refine spine_congr ?_ hes
      intro x hx
      refine h.cell_free_ne ?_
      intro hxe
      have hmem : e.1 ∈ es.map Prod.fst := hxe ▸ List.mem_map_of_mem hx
      exact (List.nodup_cons.mp hnodup).1 hmem
    have hrun := ih hrest (by simpa using hn)
    simp only [FileHeap.freeOnes, oneAt_one hc, hrun, Option.map_some]
    rfl

/-- The outer loop frees each section behind its entries. -/
theorem freeFiles_run {fs : List (Addr × Filedate)} {n : Nat} {h : FileHeap} {p : Option Addr}
    (hf : FilesAt h p fs) (hnodup : (fileNodes fs).Nodup) (hn : fs.length ≤ n) :
    FileHeap.freeFiles n p p h = some (freeFiledate fs, h.freeAll (fileNodes fs)) := by
  induction fs generalizing n h p with
  | nil =>
    have hp : p = none := hf
    subst hp
    cases n <;> rfl
  | cons f fs ih =>
    obtain ⟨n, rfl⟩ : ∃ k, n = k + 1 := ⟨n - 1, by simp at hn; omega⟩
    obtain ⟨rfl, c, r, hc, ⟨d, rfl, hd⟩, hfs⟩ := hf
    have hsplit : fileNodes (f :: fs) = (f.2.date.map Prod.fst ++ [f.1]) ++ fileNodes fs := rfl
    rw [hsplit] at hnodup
    obtain ⟨hfirst, hlast, hapart⟩ := List.nodup_append.mp hnodup
    -- the section itself is still there when its entries are gone
    have hself : (h.freeAll (f.2.date.map Prod.fst)).cell f.1 = some (.file f.2.name d r) := by
      rw [h.freeAll_cell, if_neg, hc]
      intro hm
      exact (List.nodup_append.mp hfirst).2.2 f.1 hm f.1 (List.mem_singleton_self _) rfl
    have hrest : FilesAt ((h.freeAll (f.2.date.map Prod.fst)).free f.1) r fs := by
      refine spine_files_congr hfs ?_
      intro a ha
      have hne : a ∉ f.2.date.map Prod.fst ++ [f.1] := fun hm => hapart a hm a ha rfl
      have hall : ((h.freeAll (f.2.date.map Prod.fst)).free f.1).cell a =
          (h.freeAll (f.2.date.map Prod.fst ++ [f.1])).cell a := by
        rw [h.freeAll_append]
        rfl
      rw [hall, h.freeAll_cell, if_neg hne]
    have hrun := ih hrest hlast (by simpa using hn)
    simp only [FileHeap.freeFiles, fileAt_file hc, freeOnes_run hd hd.length_le, fileAt_file hself, hrun,
      Option.map_some]
    refine congrArg some (Prod.ext ?_ ?_)
    · simp [freeFiledate]
    · rw [hsplit, h.freeAll_append, h.freeAll_append]
      rfl

/-- freeFiledate frees every node of the sections once and touches no released one. -/
theorem freeFiledate_run {fs : List (Addr × Filedate)} {h : FileHeap} {p : Option Addr}
    (hf : FilesAt h p fs) (hnodup : (fileNodes fs).Nodup) :
    h.freeFiledate p = some (freeFiledate fs, h.freeAll (fileNodes fs)) :=
  freeFiles_run hf hnodup hf.length_le

/-- The variables on the heap hang together as the lists of `s` do, and the cells that were
there before readFile are as they were. -/
structure NodeSim (h₀ : FileHeap) (s : Read) (t : ReadVars) : Prop where
  wherenow : t.wherenow = s.wherenow
  isnest : t.isnest = s.isnest
  brk : t.heap.brk = s.brk
  files : FilesAt t.heap t.filefirstNext s.files
  filetem : t.filetem = s.files.getLast?.map Prod.fst
  ones : OnesAt t.heap t.oneheadNext s.onehead
  onetem : t.onetem = s.onehead.getLast?.map Prod.fst
  old : ∀ a < h₀.brk, t.heap.cell a = h₀.cell a
  ledger : Ledger h₀.brk s

theorem Ledger.nodup {brk : Addr} {s : Read} (h : Ledger brk s) : (fileNodes s.files).Nodup := by
  rw [List.nodup_iff_count_le_one]
  intro a
  have hc := h.count a
  split_ifs at hc <;> omega

theorem Ledger.range {brk : Addr} {s : Read} (h : Ledger brk s) {a : Addr} (ha : a ∈ fileNodes s.files) :
    brk ≤ a ∧ a < s.brk := by
  have hc := h.count a
  have hpos := List.count_pos_iff.mpr ha
  by_contra hn
  rw [if_neg hn] at hc
  omega

theorem Ledger.pending {brk : Addr} {s : Read} (h : Ledger brk s) (hn : s.isnest = false) {a : Addr}
    (ha : a ∈ s.onehead.map Prod.fst) : (brk ≤ a ∧ a < s.brk) ∧ a ∉ fileNodes s.files := by
  have hc := h.count a
  rw [Read.pending, if_neg (by simp [hn])] at hc
  have hpos := List.count_pos_iff.mpr ha
  by_cases hr : brk ≤ a ∧ a < s.brk
  · refine ⟨hr, ?_⟩
    rw [if_pos hr] at hc
    rw [← List.count_eq_zero]
    omega
  · rw [if_neg hr] at hc
    omega

theorem OnesAt.ne_file {h : FileHeap} {p : Option Addr} {es : List (Addr × Onedate)} (he : OnesAt h p es)
    {a : Addr} {n : List Byte} {d r : Option Addr} (ha : h.cell a = some (.file n d r)) :
    ∀ e ∈ es, e.1 ≠ a := by
  intro e hm heq
  obtain ⟨r', hc⟩ := he.live e hm
  rw [heq, ha] at hc
  simp at hc

theorem NodeSim.setDate {h₀ : FileHeap} {s : Read} {t : ReadVars} (h : NodeSim h₀ s t) :
    ∃ d k, t.setDate = some { t with filefirstDate := d, heap := k } ∧ k.brk = s.brk ∧
      FilesAt k t.filefirstNext (TimeTask.setDate s) ∧ OnesAt k t.oneheadNext s.onehead ∧
      ∀ a < h₀.brk, k.cell a = h₀.cell a := by
  cases List.eq_nil_or_concat' s.files with
  | inl hnil =>
    have htem : t.filetem = none := by rw [h.filetem, hnil]; rfl
    refine ⟨t.oneheadNext, t.heap, ?_, h.brk, ?_, h.ones, h.old⟩
    · simp [ReadVars.setDate, htem]
    · have hdate : TimeTask.setDate s = s.files := by
        rw [TimeTask.setDate, hnil]
        rfl
      rw [hdate]
      exact h.files
  | inr hsnoc =>
    obtain ⟨fs, ⟨a, f⟩, hfs⟩ := hsnoc
    have htem : t.filetem = some a := by rw [h.filetem, hfs]; simp
    have hfiles := h.files
    rw [hfs] at hfiles
    obtain ⟨d, hl, hc, hd⟩ := hfiles.last
    have hnodup := h.ledger.nodup
    rw [hfs, fileNodes_snoc] at hnodup
    have hnew : a ∈ fileNodes s.files := mem_fileNodes_self (f := (a, f)) (by simp [hfs])
    have hne : ∀ b ∈ fileNodes fs, b ≠ a := fun b hb =>
      (List.nodup_append.mp hnodup).2.2 b hb a (by simp)
    have hones : OnesAt (t.heap.modify a (ConfCell.setDate t.oneheadNext)) t.oneheadNext s.onehead :=
      h.ones.congr fun e he => t.heap.cell_modify_ne _ (h.ones.ne_file hc e he)
    refine ⟨t.filefirstDate, t.heap.modify a (ConfCell.setDate t.oneheadNext), ?_, h.brk, ?_, hones, ?_⟩
    · simp only [ReadVars.setDate, htem, fileAt_file hc, Option.map_some]
    · rw [setDate_snoc s fs a f hfs]
      refine FilesAt.of_last (d := t.oneheadNext) ?_ ?_ hones
      · exact spine_files_congr hl fun b hb => t.heap.cell_modify_ne _ (hne b hb)
      · simp [hc, ConfCell.setDate]
    · intro b hb
      rw [t.heap.cell_modify_ne _ (by have := (h.ledger.range hnew).1; simp only [Addr] at *; omega)]
      exact h.old b hb

theorem newFile_first {h₀ : FileHeap} {s : Read} {t : ReadVars} (h : NodeSim h₀ s t) (record : List Byte)
    (len : Nat) (hledger : Ledger h₀.brk (s.newFile record len)) (hnil : s.files = []) :
    ∃ t', t.newFile record len = some t' ∧ NodeSim h₀ (s.newFile record len) t' := by
  have htem : t.filetem = none := by rw [h.filetem, hnil]; rfl
  have hle : h₀.brk ≤ t.heap.brk := h.brk ▸ h.ledger.le
  have hnew : ((t.heap.alloc (.file [] none none)).modify t.heap.brk
      (ConfCell.setName (record.take (nameCharNumMax - 1)))).cell t.heap.brk =
      some (.file (record.take (nameCharNumMax - 1)) none none) := by
    rw [Heap.cell_modify_self, Heap.cell_alloc_self]
    rfl
  have hrun : t.newFile record len = some { t with
      isnest := false
      filefirstNext := some t.heap.brk
      filetem := some t.heap.brk
      heap := (t.heap.alloc (.file [] none none)).modify t.heap.brk
        (ConfCell.setName (record.take (nameCharNumMax - 1)))
      wherenow := t.wherenow + len + 1
      oneheadNext := none
      onetem := none } := by
    simp only [ReadVars.newFile, ReadVars.setFileNext, htem, Option.map_some]
  refine ⟨_, hrun, ?_, rfl, ?_, ?_, ?_, rfl, rfl, ?_, hledger⟩
  · simp [Read.newFile, h.wherenow]
  · exact congrArg (· + 1) h.brk
  · rw [Read.newFile, hnil, ← h.brk]
    exact ⟨rfl, _, none, hnew, ⟨none, rfl, rfl⟩, rfl⟩
  · simp [Read.newFile, hnil, h.brk]
  · intro a ha
    have hne : a ≠ t.heap.brk := by simp only [Addr] at *; omega
    simp only [Heap.cell_modify_ne _ _ hne, Heap.cell_alloc_ne _ _ hne]
    exact h.old a ha

theorem newFile_behind {h₀ : FileHeap} {s : Read} {t : ReadVars} (h : NodeSim h₀ s t) (record : List Byte)
    (len : Nat) (hledger : Ledger h₀.brk (s.newFile record len)) {fs : List (Addr × Filedate)} {b : Addr}
    {f : Filedate} (hfs : s.files = fs ++ [(b, f)]) :
    ∃ t', t.newFile record len = some t' ∧ NodeSim h₀ (s.newFile record len) t' := by
  have htem : t.filetem = some b := by rw [h.filetem, hfs]; simp
  have hle : h₀.brk ≤ t.heap.brk := h.brk ▸ h.ledger.le
  have hnodup := h.ledger.nodup
  have hrange : ∀ a ∈ fileNodes s.files, h₀.brk ≤ a ∧ a < t.heap.brk := by
    intro a ha
    rw [h.brk]
    exact h.ledger.range ha
  have hfiles := h.files
  rw [hfs] at hfiles hnodup hrange
  obtain ⟨d, hl, hc, hd⟩ := hfiles.last
  have hb := hrange b (mem_fileNodes_self (f := (b, f)) (by simp))
  rw [fileNodes_snoc] at hnodup hrange
  obtain ⟨_, hlast, hapart⟩ := List.nodup_append.mp hnodup
  have hbne : b ≠ t.heap.brk := by simp only [Addr] at *; omega
  let a := t.heap.brk
  let k := ((t.heap.alloc (.file [] none none)).modify b (ConfCell.setNext (some a))).modify a
    (ConfCell.setName (record.take (nameCharNumMax - 1)))
  have hka : k.cell a = some (.file (record.take (nameCharNumMax - 1)) none none) := by
    simp only [k, a]
    rw [Heap.cell_modify_self, Heap.cell_modify_ne _ _ hbne.symm, Heap.cell_alloc_self]
    rfl
  have hkb : k.cell b = some (.file f.name d (some a)) := by
    simp only [k, a]
    rw [Heap.cell_modify_ne _ _ hbne, Heap.cell_modify_self, Heap.cell_alloc_ne _ _ hbne, hc]
    rfl
  have hk : ∀ x, x ≠ a → x ≠ b → k.cell x = t.heap.cell x := by
    intro x hxa hxb
    simp only [k]
    rw [Heap.cell_modify_ne _ _ hxa, Heap.cell_modify_ne _ _ hxb, Heap.cell_alloc_ne _ _ hxa]
  have hsame : ∀ x ∈ fileNodes fs ++ f.date.map Prod.fst, k.cell x = t.heap.cell x := by
    intro x hx
    have hmem : x ∈ fileNodes fs ++ (f.date.map Prod.fst ++ [b]) := by
      rw [← List.append_assoc]
      exact List.mem_append_left _ hx
    refine hk x (by have := (hrange x hmem).2; simp only [Addr, a] at *; omega) ?_
    intro hxb
    subst hxb
    cases List.mem_append.mp hx with
    | inl hx => exact hapart x hx x (by simp) rfl
    | inr hx => exact (List.nodup_append.mp hlast).2.2 x hx x (by simp) rfl
  have hrun : t.newFile record len = some { t with
      isnest := false
      filetem := some a
      heap := k
      wherenow := t.wherenow + len + 1
      oneheadNext := none
      onetem := none } := by
    have hcell : (t.heap.alloc (.file [] none none)).cell b = some (.file f.name d none) := by
      rw [Heap.cell_alloc_ne _ _ hbne, hc]
    simp only [ReadVars.newFile, ReadVars.setFileNext, htem, fileAt_file hcell, Option.map_some]
    rfl
  refine ⟨_, hrun, ?_, rfl, ?_, ?_, ?_, rfl, rfl, ?_, hledger⟩
  · simp [Read.newFile, h.wherenow]
  · exact congrArg (· + 1) h.brk
  · rw [Read.newFile, hfs, ← h.brk]
    refine spine_append.mpr ⟨some a, spine_append.mpr ⟨some b, ?_, rfl, _, some a, hkb, ⟨d, rfl, ?_⟩, rfl⟩,
      rfl, _, none, hka, ⟨none, rfl, rfl⟩, rfl⟩
    · exact spine_files_congr hl fun x hx => hsame x (List.mem_append_left _ hx)
    · exact hd.congr fun e he => hsame e.1 (List.mem_append_right _ (List.mem_map_of_mem he))
  · simp [Read.newFile, h.brk, a]
  · intro x hx
    have hxa : x ≠ a := by simp only [Addr, a] at *; omega
    have hxb : x ≠ b := by simp only [Addr] at *; omega
    exact (hk x hxa hxb).trans (h.old x hx)

theorem NodeSim.newFile {h₀ : FileHeap} {s : Read} {t : ReadVars} (h : NodeSim h₀ s t) (record : List Byte)
    (len : Nat) (hledger : Ledger h₀.brk (s.newFile record len)) :
    ∃ t', t.newFile record len = some t' ∧ NodeSim h₀ (s.newFile record len) t' := by
  cases List.eq_nil_or_concat' s.files with
  | inl hnil => exact newFile_first h record len hledger hnil
  | inr hsnoc =>
    obtain ⟨fs, ⟨b, f⟩, hfs⟩ := hsnoc
    exact newFile_behind h record len hledger hfs

theorem NodeSim.newOne {h₀ : FileHeap} {s : Read} {t : ReadVars} (h : NodeSim h₀ s t) (o : Onedate)
    (len : Nat) (hn : s.isnest = false) (hledger : Ledger h₀.brk (s.newOne o len)) :
    ∃ t', t.newOne o len = some t' ∧ NodeSim h₀ (s.newOne o len) t' := by
  have hle : h₀.brk ≤ t.heap.brk := h.brk ▸ h.ledger.le
  have hfresh : ∀ x ∈ fileNodes s.files, x ≠ t.heap.brk := by
    intro x hx
    have hr := (h.ledger.range hx).2
    have hb := h.brk
    simp only [Addr] at *
    omega
  cases List.eq_nil_or_concat' s.onehead with
  | inl hnil =>
    have htem : t.onetem = none := by rw [h.onetem, hnil]; rfl
    have hrun : t.newOne o len = some { t with
        oneheadNext := some t.heap.brk
        onetem := some t.heap.brk
        heap := t.heap.alloc (.one o none)
        wherenow := t.wherenow + len + 1 } := by
      simp only [ReadVars.newOne, ReadVars.setOneNext, htem, Option.map_some]
    refine ⟨_, hrun, ?_, h.isnest, ?_, ?_, h.filetem, ?_, ?_, ?_, hledger⟩
    · simp [Read.newOne, h.wherenow]
    · exact congrArg (· + 1) h.brk
    · exact spine_files_congr h.files fun x hx => t.heap.cell_alloc_ne _ (hfresh x hx)
    · rw [Read.newOne, hnil, ← h.brk]
      exact ⟨rfl, _, none, t.heap.cell_alloc_self _, rfl, rfl⟩
    · simp [Read.newOne, hnil, h.brk]
    · intro x hx
      rw [t.heap.cell_alloc_ne _ (by simp only [Addr] at *; omega)]
      exact h.old x hx
  | inr hsnoc =>
    obtain ⟨es, ⟨b, x⟩, hes⟩ := hsnoc
    have htem : t.onetem = some b := by rw [h.onetem, hes]; simp
    have hones := h.ones
    have hpending : ∀ a ∈ s.onehead.map Prod.fst, _ := fun a ha => h.ledger.pending hn ha
    have hnodup := hones.nodup
    rw [hes] at hones hpending hnodup
    obtain ⟨r, hlast⟩ := hones.live (b, x) (by simp)
    have hb := hpending b (by simp)
    rw [← h.brk] at hb
    have hbne : b ≠ t.heap.brk := by simp only [Addr] at *; omega
    have hcell : (t.heap.alloc (.one o none)).cell b = some (.one x r) := by
      rw [Heap.cell_alloc_ne _ _ hbne, hlast]
    let a := t.heap.brk
    let k := (t.heap.alloc (.one o none)).modify b (ConfCell.setNext (some a))
    have hka : k.cell a = some (.one o none) := by
      simp only [k, a]
      rw [Heap.cell_modify_ne _ _ hbne.symm, Heap.cell_alloc_self]
    have hkb : k.cell b = some (.one x (some a)) := by
      simp only [k]
      rw [Heap.cell_modify_self, hcell]
      rfl
    have hk : ∀ y, y ≠ a → y ≠ b → k.cell y = t.heap.cell y := by
      intro y hya hyb
      simp only [k]
      rw [Heap.cell_modify_ne _ _ hyb, Heap.cell_alloc_ne _ _ hya]
    have hrun : t.newOne o len = some { t with
        onetem := some a
        heap := k
        wherenow := t.wherenow + len + 1 } := by
      simp only [ReadVars.newOne, ReadVars.setOneNext, htem, oneAt_one hcell, Option.map_some]
      rfl
    refine ⟨_, hrun, ?_, h.isnest, ?_, ?_, h.filetem, ?_, ?_, ?_, hledger⟩
    · simp [Read.newOne, h.wherenow]
    · exact congrArg (· + 1) h.brk
    · refine spine_files_congr h.files ?_
      intro y hy
      refine hk y (hfresh y hy) ?_
      intro hyb
      exact hb.2 (hyb ▸ hy)
    · rw [Read.newOne, hes, ← h.brk]
      refine hones.snoc ?_ hkb hka
      intro e he
      rw [List.map_append] at hnodup hpending
      have hp := (hpending e.1 (List.mem_append_left _ (List.mem_map_of_mem he))).1.2
      rw [← h.brk] at hp
      refine hk e.1 (by simp only [Addr, a] at *; omega) ?_
      intro heb
      exact (List.nodup_append.mp hnodup).2.2 e.1 (List.mem_map_of_mem he) b (by simp) heb
    · simp [Read.newOne, h.brk, a]
    · intro y hy
      exact (hk y (by simp only [Addr, a] at *; omega) (by simp only [Addr] at *; omega)).trans (h.old y hy)

theorem strlen_terminated {dat : List Byte} (h0 : dat.getLast? = some 0) {p : Nat} (hp : p < dat.length) :
    ∃ len, strlen (dat.drop p) = some len := by
  obtain ⟨s, rfl⟩ := List.getLast?_eq_some_iff.mp h0
  cases hs : strlen ((s ++ [0]).drop p) with
  | some len => exact ⟨len, rfl⟩
  | none =>
    rw [strlen, List.findIdx?_eq_none_iff] at hs
    have hmem : (0 : Byte) ∈ (s ++ [0]).drop p := by
      rw [List.drop_append_of_le_length (by simpa using Nat.lt_succ_iff.mp (by simpa using hp))]
      simp
    simpa using hs 0 hmem

/-- What readFile returns on the heap, against what it returns on lists. -/
structure Returned (h₀ : FileHeap) (q : ReadResult) (r : NodeResult) : Prop where
  ret : r.ret = q.ret
  events : r.events = q.events
  brk : r.heap.brk = q.brk
  old : ∀ a < h₀.brk, r.heap.cell a = h₀.cell a
  live : ∀ a, h₀.brk ≤ a → a < q.brk →
    ((r.heap.cell a).isSome ↔ q.events.countP (Event.frees a) = 0)
  /-- what is stored through the second argument is the section list -/
  res : match q.res with
    | none => r.res = none
    | some files => ∃ p, r.res = some p ∧ FilesAt r.heap p files ∧
        ∀ a, (fileNodes files).count a = if h₀.brk ≤ a ∧ a < q.brk then 1 else 0

/-- Both loops read outside the buffer, or both return. -/
def ReturnedBoth (h₀ : FileHeap) : Option ReadResult → Option NodeResult → Prop
  | none, none => True
  | some q, some r => Returned h₀ q r
  | _, _ => False

theorem FilesAt.live {h : FileHeap} {p : Option Addr} {fs : List (Addr × Filedate)} (hf : FilesAt h p fs)
    {a : Addr} (ha : a ∈ fileNodes fs) : (h.cell a).isSome := by
  obtain ⟨f, hm, ha⟩ := List.mem_flatMap.mp ha
  obtain ⟨c, r, hc, d, _, hd⟩ := spine_live hf f hm
  cases List.mem_append.mp ha with
  | inl ha =>
    obtain ⟨e, he, rfl⟩ := List.mem_map.mp ha
    obtain ⟨r', hr⟩ := hd.live e he
    simp [hr]
  | inr ha =>
    rw [List.mem_singleton.mp ha, hc]
    rfl

theorem NodeSim.live {h₀ : FileHeap} {s : Read} {t : ReadVars} (h : NodeSim h₀ s t) {a : Addr}
    (ha : h₀.brk ≤ a ∧ a < s.brk) : (t.heap.cell a).isSome := by
  by_cases hf : a ∈ fileNodes s.files
  · exact h.files.live hf
  · have hc := h.ledger.count a
    rw [if_pos ha, List.count_eq_zero.mpr hf] at hc
    have hp : a ∈ s.pending := List.count_pos_iff.mp (by omega)
    rw [Read.pending] at hp
    split_ifs at hp with hn
    · simp at hp
    · obtain ⟨e, he, rfl⟩ := List.mem_map.mp hp
      obtain ⟨r, hr⟩ := h.ones.live e he
      simp [hr]

theorem Ledger.closed {brk : Addr} {s : Read} (h : Ledger brk s) :
    Ledger brk { s with files := TimeTask.setDate s, isnest := true, wherenow := s.wherenow + 2 } := by
  -- the step that a separator at this position takes
  have hb : readBody (List.replicate s.wherenow 0 ++ [32]) s =
      .again { s with files := TimeTask.setDate s, isnest := true, wherenow := s.wherenow + 2 } := by
    simp [readBody]
  exact h.step hb

theorem NodeSim.finish {h₀ : FileHeap} {s : Read} {t : ReadVars} (h : NodeSim h₀ s t) :
    ∃ r, (t.setDate.map fun s => (⟨0, some s.filefirstNext, s.heap, []⟩ : NodeResult)) = some r ∧
      Returned h₀ ⟨0, some (TimeTask.setDate s), s.brk, []⟩ r := by
  obtain ⟨d, k, hrun, hbrk, hfiles, _, hold⟩ := h.setDate
  have hcount := h.ledger.closed.count
  rw [Read.pending, if_pos rfl] at hcount
  refine ⟨_, by rw [hrun]; rfl, rfl, rfl, hbrk, hold, ?_, t.filefirstNext, rfl, hfiles, hcount⟩
  intro a hle hlt
  have hc := hcount a
  rw [if_pos ⟨hle, hlt⟩] at hc
  have hmem : a ∈ fileNodes (TimeTask.setDate s) := List.count_pos_iff.mp (by simpa using hc.ge)
  exact iff_of_true (hfiles.live hmem) rfl

/-- Writing NULL behind the last entry changes nothing. -/
theorem NodeSim.setOneNext_none {h₀ : FileHeap} {s : Read} {t : ReadVars} (h : NodeSim h₀ s t) :
    t.setOneNext none = some t := by
  have hones := h.ones
  cases List.eq_nil_or_concat' s.onehead with
  | inl hnil =>
    have htem : t.onetem = none := by rw [h.onetem, hnil]; rfl
    rw [hnil] at hones
    have hnext : t.oneheadNext = none := hones
    obtain ⟨_, _, _, _, _, _, _, _⟩ := t
    subst htem hnext
    rfl
  | inr hsnoc =>
    obtain ⟨es, ⟨b, x⟩, hes⟩ := hsnoc
    have htem : t.onetem = some b := by rw [h.onetem, hes]; simp
    rw [hes] at hones
    obtain ⟨r, _, _, c, q, hc, hs, hq⟩ := spine_append.mp hones
    have hlast : t.heap.cell b = some (.one x none) := by
      have hnone : q = none := hq
      rw [hc, hs, hnone]
    have hsame : t.heap.modify b (ConfCell.setNext none) = t.heap := t.heap.modify_eq_self (by simp [hlast, ConfCell.setNext])
    obtain ⟨_, _, _, _, _, _, _, _⟩ := t
    subst htem
    simp only [ReadVars.setOneNext, oneAt_one hlast, Option.map_some]
    rw [hsame]

theorem NodeSim.reject {h₀ : FileHeap} {s : Read} {t : ReadVars} (h : NodeSim h₀ s t) :
    ∃ r, rejectNodes t = some r ∧ Returned h₀ ⟨-2, none, s.brk, freeFiledate s.files⟩ r := by
  have hfree := freeFiledate_run h.files h.ledger.nodup
  refine ⟨⟨-2, none, t.heap.freeAll (fileNodes s.files), freeFiledate s.files⟩, ?_, rfl, rfl, ?_, ?_, ?_, rfl⟩
  · simp only [rejectNodes, h.setOneNext_none, Option.bind_some, hfree, Option.map_some]
  · exact (t.heap.freeAll_brk _).trans h.brk
  · intro a ha
    have hold : a ∉ fileNodes s.files := by
      intro hm
      have := (h.ledger.range hm).1
      simp only [Addr] at *
      omega
    rw [t.heap.freeAll_cell, if_neg hold]
    exact h.old a ha
  · intro a hle hlt
    rw [freeFiledate_frees, List.count_eq_zero, t.heap.freeAll_cell]
    by_cases hm : a ∈ fileNodes s.files
    · simp [hm]
    · simp [hm, h.live ⟨hle, hlt⟩]

theorem setDate_keys (s : Read) :
    (TimeTask.setDate s).getLast?.map Prod.fst = s.files.getLast?.map Prod.fst := by
  cases List.eq_nil_or_concat' s.files with
  | inl hnil =>
    rw [TimeTask.setDate, hnil]
    rfl
  | inr hsnoc =>
    obtain ⟨fs, ⟨a, f⟩, hfs⟩ := hsnoc
    rw [setDate_snoc s fs a f hfs, hfs]
    simp

/-- readFile on the heap and readFile on lists, pass by pass. -/
theorem node_lockstep (h₀ : FileHeap) {dat : List Byte} (h0 : dat.getLast? = some 0) :
    Lockstep (readBody dat) (nodeBody dat) (NodeSim h₀) (ReturnedBoth h₀) := by
  intro s t h
  cases hb : dat[s.wherenow]? with
  | none => exact .inr ⟨none, none, by simp [readBody, hb], by simp [nodeBody, h.wherenow, hb], trivial⟩
  | some b =>
    have hp : s.wherenow < dat.length := (List.getElem?_eq_some_iff.mp hb).1
    obtain ⟨len, hlen⟩ := strlen_terminated h0 hp
    by_cases hb0 : b = 0
    · obtain ⟨r, hr, hret⟩ := h.finish
      refine .inr ⟨some ⟨0, some (TimeTask.setDate s), s.brk, []⟩, some r, by simp [readBody, hb, hb0], ?_, hret⟩
      simp only [nodeBody, h.wherenow, hb, hb0, if_true, hr]
    · by_cases hb32 : b = 32
      · obtain ⟨d, k, hrun, hbrk, hfiles, hones, hold⟩ := h.setDate
        have hbody : readBody dat s =
            .again { s with files := TimeTask.setDate s, isnest := true, wherenow := s.wherenow + 2 } := by
          simp [readBody, hb, hb32]
        refine .inl ⟨_, { t with filefirstDate := d, heap := k, isnest := true, wherenow := t.wherenow + 2 },
          hbody, ?_, ⟨?_, rfl, hbrk, hfiles, ?_, hones, h.onetem, hold, h.ledger.step hbody⟩⟩
        · simp [nodeBody, h.wherenow, hb, hb32, hrun, goOn]
        · exact congrArg (· + 2) h.wherenow
        · rw [h.filetem, setDate_keys]
      · cases hn : s.isnest with
        | true =>
          have hbody : readBody dat s = .again (s.newFile ((dat.drop s.wherenow).take len) len) := by
            simp [readBody, hb, hb0, hb32, hlen, hn]
          obtain ⟨t', hrun, hsim⟩ := h.newFile _ len (h.ledger.step hbody)
          refine .inl ⟨_, t', hbody, ?_, hsim⟩
          simp [nodeBody, h.wherenow, h.isnest, hb, hb0, hb32, hlen, hn, hrun, goOn]
        | false =>
          cases hf : fetchInf dat s.wherenow with
          | none =>
            refine .inr ⟨none, none, by simp [readBody, hb, hb0, hb32, hlen, hn, hf], ?_, trivial⟩
            simp [nodeBody, h.wherenow, h.isnest, hb, hb0, hb32, hn, hf]
          | some res =>
            cases res with
            | none =>
              obtain ⟨r, hr, hret⟩ := h.reject
              refine .inr ⟨some ⟨-2, none, s.brk, freeFiledate s.files⟩, some r,
                by simp [readBody, hb, hb0, hb32, hlen, hn, hf], ?_, hret⟩
              simp [nodeBody, h.wherenow, h.isnest, hb, hb0, hb32, hn, hf, hr]
            | some o =>
              have hbody : readBody dat s = .again (s.newOne o len) := by
                simp [readBody, hb, hb0, hb32, hlen, hn, hf]
              obtain ⟨t', hrun, hsim⟩ := h.newOne o len hn (h.ledger.step hbody)
              refine .inl ⟨_, t', hbody, ?_, hsim⟩
              simp [nodeBody, h.wherenow, h.isnest, hb, hb0, hb32, hlen, hn, hf, hrun, goOn]

theorem nodeStart_sim (h : FileHeap) : NodeSim h (readStart h.brk) (nodeStart h) :=
  ⟨rfl, rfl, rfl, rfl, rfl, rfl, rfl, fun _ _ => rfl, ledger_start h.brk⟩

theorem returned_null (h : FileHeap) : Returned h ⟨-1, none, h.brk, []⟩ ⟨-1, none, h, []⟩ :=
  ⟨rfl, rfl, rfl, fun _ _ => rfl, fun _ hle hlt => absurd hlt (Nat.not_lt.mpr hle), rfl⟩

theorem readNodes_returned {dat : List Byte} (h0 : dat.getLast? = some 0) {h : FileHeap} {r : NodeResult}
    (hr : ReadNodes (some dat) true h r) : ∃ q, ReadFile (some dat) true h.brk q ∧ Returned h q r := by
  obtain ⟨q, hq, hout⟩ := (node_lockstep h h0).symm.leaves (nodeStart_sim h) hr
  cases q with
  | none => exact hout.elim
  | some q => exact ⟨q, hq, hout⟩

def Terminated (dat : Option (List Byte)) : Prop := ∀ d ∈ dat, d.getLast? = some 0

/-- readFile on the heap returns exactly when readFile on lists does: the same code, the same
sections in the same nodes, and everything that was there before untouched. -/
theorem readNodes_refines (dat : Option (List Byte)) (h0 : Terminated dat) (res : Bool) (h : FileHeap) :
    (∀ q, ReadFile dat res h.brk q → ∃ r, ReadNodes dat res h r ∧ Returned h q r) ∧
    (∀ r, ReadNodes dat res h r → ∃ q, ReadFile dat res h.brk q ∧ Returned h q r) := by
  cases dat with
  | none =>
    refine ⟨fun q hq => ⟨_, rfl, ?_⟩, fun r hr => ⟨_, rfl, ?_⟩⟩
    · rw [show q = _ from hq]
      exact returned_null h
    · rw [show r = _ from hr]
      exact returned_null h
  | some dat =>
    cases res with
    | false =>
      refine ⟨fun q hq => ⟨_, rfl, ?_⟩, fun r hr => ⟨_, rfl, ?_⟩⟩
      · rw [show q = _ from hq]
        exact returned_null h
      · rw [show r = _ from hr]
        exact returned_null h
    | true =>
      refine ⟨fun q hq => ?_, fun r hr => readNodes_returned (h0 dat rfl) hr⟩
      obtain ⟨r, hr, hout⟩ := (node_lockstep h (h0 dat rfl)).leaves (nodeStart_sim h) hq
      cases r with
      | none => exact hout.elim
      | some r => exact ⟨r, hr, hout⟩

def twoCells : FileHeap := (Heap.empty.alloc (.file [] none none)).alloc (.file [] none none)

/-- The buffer "s", "k:v". -/
theorem readNodes_refines_short :
    (∀ q, ReadFile (some [115, 0, 107, 58, 118, 0, 0]) true twoCells.brk q →
      ∃ r, ReadNodes (some [115, 0, 107, 58, 118, 0, 0]) true twoCells r ∧ Returned twoCells q r) ∧
    (∀ r, ReadNodes (some [115, 0, 107, 58, 118, 0, 0]) true twoCells r →
      ∃ q, ReadFile (some [115, 0, 107, 58, 118, 0, 0]) true twoCells.brk q ∧ Returned twoCells q r) :=
  readNodes_refines (some [115, 0, 107, 58, 118, 0, 0]) (by simp [Terminated]) true twoCells

/-- readFile returns at the end of the buffer or at a record that fetchInf refuses. -/
theorem readFile_last {dat : List Byte} {brk : Addr} {q : ReadResult} (hq : ReadFile (some dat) true brk q) :
    ∃ s, Goes (readBody dat) (readStart brk) s ∧
      (q = ⟨0, some (TimeTask.setDate s), s.brk, []⟩ ∨ q = ⟨-2, none, s.brk, freeFiledate s.files⟩) := by
  obtain ⟨s, hgo, hb⟩ := Leaves.last hq
  refine ⟨s, hgo, ?_⟩
  unfold readBody at hb
  cases hd : dat[s.wherenow]? with
  | none => simp [hd] at hb
  | some b =>
    simp only [hd] at hb
    by_cases h0 : b = 0
    · rw [if_pos h0] at hb
      cases hb
      exact .inl rfl
    · rw [if_neg h0] at hb
      by_cases h32 : b = 32
      · simp [h32] at hb
      · rw [if_neg h32] at hb
        cases hl : strlen (dat.drop s.wherenow) with
        | none => simp [hl] at hb
        | some len =>
          simp only [hl] at hb
          by_cases hn : s.isnest = true
          · simp [hn] at hb
          · rw [if_neg hn] at hb
            cases hf : fetchInf dat s.wherenow with
            | none => simp [hf] at hb
            | some o =>
              cases o with
              | none =>
                simp only [hf] at hb
                cases hb
                exact .inr rfl
              | some o => simp [hf] at hb

/-- What readFile builds freeFiledate takes down: afterwards the heap is the one in front of
readFile, every node was freed once, and no released node was touched. -/
theorem freeFiledate_undoes (dat : List Byte) (h0 : dat.getLast? = some 0) (h : FileHeap) (r : NodeResult)
    (hr : ReadNodes (some dat) true h r) (hret : r.ret = 0) :
    ∃ p es k, r.res = some p ∧ r.heap.freeFiledate p = some (es, k) ∧ k.cell = h.cell ∧
      ∀ a, es.countP (Event.frees a) = if h.brk ≤ a ∧ a < r.heap.brk then 1 else 0 := by
  obtain ⟨q, hq, hout⟩ := readNodes_returned h0 hr
  obtain ⟨s, _, hlast⟩ := readFile_last hq
  cases hlast with
  | inr hq2 =>
    rw [hout.ret, hq2] at hret
    cases hret
  | inl hq0 =>
    have hres := hout.res
    simp only [hq0] at hres
    obtain ⟨p, hp, hat, hcount⟩ := hres
    have hbrk : r.heap.brk = s.brk := by rw [hout.brk, hq0]
    have hnodup : (fileNodes (TimeTask.setDate s)).Nodup := by
      rw [List.nodup_iff_count_le_one]
      intro a
      rw [hcount a]
      split_ifs <;> omega
    refine ⟨p, _, _, hp, freeFiledate_run hat hnodup, ?_, ?_⟩
    · funext a
      have hmem : a ∈ fileNodes (TimeTask.setDate s) ↔ h.brk ≤ a ∧ a < s.brk := by
        rw [← List.count_pos_iff, hcount a]
        split_ifs with ha <;> simp [ha]
      rw [r.heap.freeAll_cell]
      by_cases ha : h.brk ≤ a ∧ a < s.brk
      · rw [if_pos (hmem.mpr ha), h.fresh a ha.1]
      · rw [if_neg fun hm => ha (hmem.mp hm)]
        by_cases hlt : a < h.brk
        · exact hout.old a hlt
        · have hle : h.brk ≤ a := Nat.not_lt.mp hlt
          rw [h.fresh a hle, r.heap.fresh a (hbrk ▸ Nat.not_lt.mp fun hq => ha ⟨hle, hq⟩)]
    · intro a
      rw [freeFiledate_frees, hcount a, hbrk]

/-- The buffer "s", "k:v" is read into two nodes, and both are freed. -/
theorem freeFiledate_undoes_short : ∃ r, ReadNodes (some [115, 0, 107, 58, 118, 0, 0]) true twoCells r ∧
    ∃ p es k, r.res = some p ∧ r.heap.freeFiledate p = some (es, k) ∧ k.cell = twoCells.cell ∧
      ∀ a, es.countP (Event.frees a) = if twoCells.brk ≤ a ∧ a < r.heap.brk then 1 else 0 := by
  have hread : ∃ r, ReadNodes (some [115, 0, 107, 58, 118, 0, 0]) true twoCells r ∧ r.ret = 0 :=
    ⟨_, ⟨3, rfl⟩, rfl⟩
  obtain ⟨r, hr, hret⟩ := hread
  exact ⟨r, hr, freeFiledate_undoes [115, 0, 107, 58, 118, 0, 0] rfl twoCells r hr hret⟩

end TimeTask
