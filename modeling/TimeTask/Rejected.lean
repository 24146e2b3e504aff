import TimeTask.Grammar

/-! A configuration that readFile rejects: which of the nodes it allocated are freed. -/
namespace TimeTask
open Lib

/-- The nodes that hang on the section list, in the order in which freeFiledate frees them. -/
def fileNodes (files : List (Addr × Filedate)) : List Addr :=
  files.flatMap fun f => f.2.date.map Prod.fst ++ [f.1]

def Event.frees (a : Addr) : Event → Bool
  | .freeOne b => b == a
  | .freeFile b => b == a
  | _ => false

/-- Every node allocated from `brk` on was freed once, and no other was. -/
def FreedOnce (brk : Addr) (q : ReadResult) : Prop :=
  ∀ a, q.events.countP (Event.frees a) = if brk ≤ a ∧ a < q.brk then 1 else 0

theorem freeFiledate_frees (files : List (Addr × Filedate)) (a : Addr) :
    (freeFiledate files).countP (Event.frees a) = (fileNodes files).count a := by
  induction files with
  | nil => rfl
  | cons f files ih =>
    have hfree : freeFiledate (f :: files) =
        f.2.date.map (fun o => Event.freeOne o.1) ++ [Event.freeFile f.1] ++ freeFiledate files := rfl
    have hnode : fileNodes (f :: files) = f.2.date.map Prod.fst ++ [f.1] ++ fileNodes files := rfl
    have hdate : (f.2.date.map fun o => Event.freeOne o.1).countP (Event.frees a) =
        (f.2.date.map Prod.fst).count a := by
      rw [List.count, List.countP_map, List.countP_map]
      rfl
    have hfile : [Event.freeFile f.1].countP (Event.frees a) = [f.1].count a := rfl
    rw [hfree, hnode, List.countP_append, List.countP_append, List.count_append, List.count_append, hdate,
      hfile, ih]

/-- The entries that hang on the local list head only. -/
def Read.pending (s : Read) : List Addr := if s.isnest then [] else s.onehead.map Prod.fst

/-- Every node allocated so far hangs once on the section list or on the local list head. A
section that is being read has no entries on the list yet. -/
structure Ledger (brk : Addr) (s : Read) : Prop where
  le : brk ≤ s.brk
  count : ∀ a, (fileNodes s.files).count a + s.pending.count a = if brk ≤ a ∧ a < s.brk then 1 else 0
  attached : s.isnest = true → setDate s = s.files
  started : s.isnest = false → ∃ fs a n, s.files = fs ++ [(a, ⟨n, []⟩)]

theorem readBody_again {dat : List Byte} {s t : Read} (h : readBody dat s = .again t) :
    t = { s with files := setDate s, isnest := true, wherenow := s.wherenow + 2 } ∨
    (s.isnest = true ∧ ∃ r len, t = s.newFile r len) ∨
    (s.isnest = false ∧ ∃ o len, t = s.newOne o len) := by
  unfold readBody at h
  cases hb : dat[s.wherenow]? with
  | none => simp [hb] at h
  | some b =>
    simp only [hb] at h
    by_cases h0 : b = 0
    · simp [h0] at h
    · by_cases h32 : b = 32
      · simp only [h32, if_true] at h
        exact Or.inl (Pass.again.inj h).symm
      · rw [if_neg h0, if_neg h32] at h
        cases hl : strlen (dat.drop s.wherenow) with
        | none => simp [hl] at h
        | some len =>
          simp only [hl] at h
          cases hn : s.isnest with
          | true =>
            rw [if_pos hn] at h
            exact Or.inr (Or.inl ⟨rfl, _, _, (Pass.again.inj h).symm⟩)
          | false =>
            rw [if_neg (by simp [hn])] at h
            cases hf : fetchInf dat s.wherenow with
            | none => simp [hf] at h
            | some o =>
              cases o with
              | none => simp [hf] at h
              | some o =>
                simp only [hf] at h
                exact Or.inr (Or.inr ⟨rfl, _, _, (Pass.again.inj h).symm⟩)

theorem fileNodes_snoc (fs : List (Addr × Filedate)) (f : Addr × Filedate) :
    fileNodes (fs ++ [f]) = fileNodes fs ++ (f.2.date.map Prod.fst ++ [f.1]) := by
  simp [fileNodes]

theorem range_succ {brk n : Nat} (h : brk ≤ n) (a : Nat) : (if brk ≤ a ∧ a < n + 1 then 1 else 0) =
    (if brk ≤ a ∧ a < n then 1 else 0) + [n].count a := by
  rw [List.count_singleton]
  by_cases ha : a = n
  · subst ha
    rw [if_pos (by omega), if_neg (by omega)]
    simp
  · have hne : (n == a) = false := by
      rw [beq_eq_false_iff_ne]
      exact fun he => ha he.symm
    simp only [hne, Bool.false_eq_true, if_false, Nat.add_zero]
    split_ifs <;> omega

theorem Ledger.step {dat : List Byte} {brk : Addr} {s t : Read} (h : Ledger brk s)
    (hb : readBody dat s = .again t) : Ledger brk t := by
  cases readBody_again hb with
  | inl hsep =>
    subst hsep
    cases hn : s.isnest with
    | true =>
      have hsame := h.attached hn
      have hcount := h.count
      rw [Read.pending, if_pos hn] at hcount
      refine ⟨h.le, fun a => ?_, fun _ => ?_, fun hf => Bool.noConfusion hf⟩
      · rw [hsame]
        exact hcount a
      · simp only [setDate] at hsame ⊢
        rw [hsame, hsame]
    | false =>
      obtain ⟨fs, b, n, hfs⟩ := h.started hn
      have hcount := h.count
      rw [Read.pending, if_neg (by simp [hn]), hfs] at hcount
      have hset := setDate_snoc s fs b ⟨n, []⟩ hfs
      refine ⟨h.le, fun a => ?_, fun _ => ?_, fun hf => Bool.noConfusion hf⟩
      · have hc := hcount a
        simp only [hset, fileNodes_snoc, List.count_append, Read.pending, if_true] at hc ⊢
        rw [← hc]
        simp
        omega
      · exact (setDate_snoc { s with files := setDate s, isnest := true, wherenow := s.wherenow + 2 } fs b
          ⟨n, s.onehead⟩ hset).trans hset.symm
  | inr hnew =>
    cases hnew with
    | inl hfile =>
      obtain ⟨hn, r, len, rfl⟩ := hfile
      have hcount := h.count
      rw [Read.pending, if_pos hn] at hcount
      refine ⟨Nat.le_succ_of_le h.le, fun a => ?_, fun hf => Bool.noConfusion hf, fun _ => ⟨_, _, _, rfl⟩⟩
      rw [Read.newFile, range_succ h.le, ← hcount a, fileNodes_snoc, List.count_append]
      simp [Read.pending]
    | inr hone =>
      obtain ⟨hn, o, len, rfl⟩ := hone
      have hcount := h.count
      rw [Read.pending, if_neg (by simp [hn])] at hcount
      refine ⟨Nat.le_succ_of_le h.le, fun a => ?_, fun hf => ?_, fun _ => h.started hn⟩
      · rw [Read.newOne, range_succ h.le, ← hcount a]
        simp [Read.pending, hn]
        omega
      · rw [Read.newOne, hn] at hf
        cases hf

def readStart (brk : Addr) : Read := ⟨0, true, [], [], brk⟩

theorem ledger_start (brk : Addr) : Ledger brk (readStart brk) := by
  refine ⟨Nat.le_refl _, fun a => ?_, fun _ => rfl, fun hf => Bool.noConfusion hf⟩
  rw [if_neg fun h => absurd h.2 (Nat.not_lt.mpr h.1)]
  rfl

/-- Where readFile rejects a record, exactly the entries of its section are leaked. -/
theorem rejected_once {dat : List Byte} {brk : Addr} {s : Read} (hgo : Goes (readBody dat) (readStart brk) s)
    (hn : s.isnest = false) :
    FreedOnce brk ⟨-2, none, s.brk, freeFiledate s.files⟩ ↔ s.onehead = [] := by
  have hl : Ledger brk s := hgo.keep (ledger_start brk) fun a b ha hb => ha.step hb
  have hcount := hl.count
  rw [Read.pending, if_neg (by simp [hn])] at hcount
  constructor
  · intro h
    cases ho : s.onehead with
    | nil => rfl
    | cons o os =>
      have hone := h o.1
      have hc := hcount o.1
      rw [freeFiledate_frees] at hone
      rw [ho, List.map_cons, List.count_cons_self] at hc
      simp only at hone
      omega
  · intro ho a
    have hc := hcount a
    rw [ho, List.map_nil, List.count_nil, Nat.add_zero] at hc
    rw [freeFiledate_frees]
    exact hc

instance : DecidablePred Splits := fun r => decidable_of_iff ((entryAt 0 r).isSome = true) (by
  constructor
  · intro h
    obtain ⟨o, ho⟩ := Option.isSome_iff_exists.mp h
    exact entryAt_splits ho
  · intro h
    obtain ⟨k, v, rfl, hc, hk, hv⟩ := h
    rw [entryAt_pair 0 hk hc hv]
    rfl)

/-- Some entry of the section does not split. -/
def Group.bad (g : Group) : Bool := g.entries.any fun r => !decide (Splits r)

/-- The first section with an entry that does not split has such an entry right behind its name. -/
def RejectsFirst (recs : List (List Byte)) : Prop :=
  ∃ g r rest, (sections recs).find? Group.bad = some g ∧ g.entries = r :: rest ∧ ¬ Splits r

theorem splitOn_mem {recs : List (List Byte)} : ∀ b ∈ recs.splitOn [32], ∀ r ∈ b, r ∈ recs ∧ r ≠ [32] := by
  induction recs with
  | nil => simp
  | cons x recs ih =>
    intro b hb r hr
    rw [List.splitOn_cons_eq_if_modifyHead] at hb
    by_cases hx : x = [32]
    · rw [if_pos (by simpa using hx)] at hb
      cases List.mem_cons.mp hb with
      | inl hb =>
        rw [hb] at hr
        cases hr
      | inr hb =>
        have hi := ih b hb r hr
        exact ⟨List.mem_cons_of_mem x hi.1, hi.2⟩
    · rw [if_neg (by simpa using hx)] at hb
      obtain ⟨c, cs, hcs⟩ := List.exists_cons_of_ne_nil (List.splitOn_ne_nil [32] recs)
      rw [hcs] at hb ih
      rw [List.modifyHead_cons] at hb
      cases List.mem_cons.mp hb with
      | inl hb =>
        rw [hb] at hr
        cases List.mem_cons.mp hr with
        | inl hr =>
          rw [hr]
          exact ⟨by simp, hx⟩
        | inr hr =>
          have hi := ih c (by simp) r hr
          exact ⟨List.mem_cons_of_mem x hi.1, hi.2⟩
      | inr hb =>
        have hi := ih b (List.mem_cons_of_mem c hb) r hr
        exact ⟨List.mem_cons_of_mem x hi.1, hi.2⟩

theorem entryAt_of_splits (p : Nat) {r : List Byte} (h : Splits r) : ∃ o, entryAt p r = some o := by
  obtain ⟨k, v, rfl, hc, hk, hv⟩ := h
  exact ⟨_, entryAt_pair p hk hc hv⟩

theorem entriesAt_of_splits {rs : List (List Byte)} (h : ∀ r ∈ rs, Splits r) : ∀ (p : Nat) (a : Addr),
    ∃ es, entriesAt p a rs = some es ∧ es.length = rs.length := by
  induction rs with
  | nil => exact fun p a => ⟨[], rfl, rfl⟩
  | cons r rs ih =>
    intro p a
    obtain ⟨o, ho⟩ := entryAt_of_splits p (h r (by simp))
    obtain ⟨es, hes, hlen⟩ := ih (fun x hx => h x (List.mem_cons_of_mem r hx)) (p + r.length + 1) (a + 1)
    exact ⟨(a, o) :: es, by simp [entriesAt, ho, hes], by simp [hlen]⟩

theorem Group.not_bad {g : Group} (h : g.bad = false) : ∀ r ∈ g.entries, Splits r := by
  intro r hr
  have hall := List.any_eq_false.mp h r hr
  simpa using hall

theorem Group.bad_entry {g : Group} (h : g.bad = true) : ∃ good bad rest,
    g.entries = good ++ bad :: rest ∧ (∀ r ∈ good, Splits r) ∧ ¬ Splits bad := by
  obtain ⟨r, hr, hbad⟩ := List.any_eq_true.mp h
  have hsome : (g.entries.find? fun r => !decide (Splits r)).isSome := List.find?_isSome.mpr ⟨r, hr, hbad⟩
  obtain ⟨bad, hfind⟩ := Option.isSome_iff_exists.mp hsome
  obtain ⟨hb, good, rest, hentries, hgood⟩ := List.find?_eq_some_iff_append.mp hfind
  exact ⟨good, bad, rest, hentries, fun x hx => by simpa using hgood x hx, by simpa using hb⟩

theorem good_section {dat y : List Byte} {g : Group} {s : Read} (hg : ∀ r ∈ g.records, RecordOk r)
    (hgood : ∀ r ∈ g.entries, Splits r) (hd : dat.drop s.wherenow = encode g.records ++ y)
    (hn : s.isnest = true) : ∃ s', Goes (readBody dat) s s' ∧ dat.drop s'.wherenow = y := by
  have hrun := group_run g hg s y hd hn
  obtain ⟨es, hes, _⟩ := entriesAt_of_splits hgood (s.wherenow + g.name.length + 1) (s.brk + 1)
  rw [hes] at hrun
  exact ⟨_, hrun, drop_behind es hd⟩

/-- A section with such an entry is read up to it, and the entry is rejected. -/
theorem bad_section {dat y : List Byte} {g : Group} {s : Read} {good rest : List (List Byte)} {bad : List Byte}
    (hg : ∀ r ∈ g.records, RecordOk r) (hentries : g.entries = good ++ bad :: rest)
    (hgood : ∀ r ∈ good, Splits r) (hbad : ¬ Splits bad)
    (hd : dat.drop s.wherenow = encode g.records ++ y) (hn : s.isnest = true) :
    ∃ s', Goes (readBody dat) s s' ∧ s'.isnest = false ∧ s'.onehead.length = good.length ∧
      readBody dat s' = .leave (some ⟨-2, none, s'.brk, freeFiledate s'.files⟩) := by
  have hmem : ∀ r ∈ g.name :: (good ++ bad :: rest), RecordOk r := by
    rw [← hentries]
    exact hg
  have hrecs : encode g.records = encode (Group.records ⟨g.name, good⟩) ++ encode (bad :: rest) := by
    rw [← encode_append, Group.records, hentries]
    rfl
  rw [hrecs, List.append_assoc] at hd
  have hgood' : ∀ r ∈ (⟨g.name, good⟩ : Group).records, RecordOk r := by
    intro r hr
    cases List.mem_cons.mp hr with
    | inl hr =>
      rw [hr]
      exact hmem g.name (by simp)
    | inr hr => exact hmem r (by simp [show r ∈ good from hr])
  have hrun := group_run ⟨g.name, good⟩ hgood' s _ hd hn
  obtain ⟨es, hes, hlen⟩ := entriesAt_of_splits hgood (s.wherenow + g.name.length + 1) (s.brk + 1)
  simp only [hes] at hrun
  refine ⟨_, hrun, rfl, hlen, ?_⟩
  have hnext : dat.drop (s.behind ⟨g.name, good⟩ es).wherenow = bad ++ 0 :: (encode rest ++ y) := by
    rw [drop_behind es hd, encode_cons]
    simp
  rw [readBody_entry hnext (hmem bad (by simp)) rfl]
  cases he : entryAt (s.behind ⟨g.name, good⟩ es).wherenow bad with
  | none => rfl
  | some o => exact absurd (entryAt_splits he) hbad

/-- readFile comes to the first entry of the sections `gs` that does not split, with as many
entries read before it in its section as there are. -/
def ComesToBad (dat : List Byte) (gs : List Group) (s : Read) : Prop :=
  ∃ g good bad rest s', gs.find? Group.bad = some g ∧ g.entries = good ++ bad :: rest ∧
    (∀ r ∈ good, Splits r) ∧ ¬ Splits bad ∧ Goes (readBody dat) s s' ∧ s'.isnest = false ∧
    s'.onehead.length = good.length ∧
    readBody dat s' = .leave (some ⟨-2, none, s'.brk, freeFiledate s'.files⟩)

/-- readFile reads all sections `gs`, or it comes to the first entry that does not split. -/
def ReadsOrStops (dat : List Byte) (gs : List Group) (s : Read) : Prop :=
  (∃ q, Leaves (readBody dat) s (some q) ∧ q.ret = 0) ∨ ComesToBad dat gs s

theorem ReadsOrStops.before {dat : List Byte} {gs : List Group} {s t : Read} (h : ReadsOrStops dat gs t)
    (hgo : Goes (readBody dat) s t) : ReadsOrStops dat gs s := by
  cases h with
  | inl hread =>
    obtain ⟨q, hq, hret⟩ := hread
    exact Or.inl ⟨q, Leaves.of_goes hgo hq, hret⟩
  | inr hstop =>
    obtain ⟨g, good, bad, rest, s', hg, he, hgood, hbad, hgo', hrun⟩ := hstop
    exact Or.inr ⟨g, good, bad, rest, s', hg, he, hgood, hbad, hgo.trans hgo', hrun⟩

theorem ReadsOrStops.cons {dat : List Byte} {g : Group} {gs : List Group} {s : Read} (hg : g.bad = false)
    (h : ReadsOrStops dat gs s) : ReadsOrStops dat (g :: gs) s := by
  unfold ReadsOrStops ComesToBad at h ⊢
  rw [List.find?_cons_of_neg (by simp [hg])]
  exact h

/-- readFile on blocks of records, each of them a section when it is not empty. -/
theorem blocks_run {dat z : List Byte} (blocks : List (List (List Byte))) : ∀ s : Read,
    dat.drop s.wherenow = encode ([[32]].intercalate blocks) ++ 0 :: z →
    (∀ b ∈ blocks, ∀ r ∈ b, RecordOk r) → s.isnest = true →
    ReadsOrStops dat (blocks.filterMap Group.ofRecords) s := by
  induction blocks with
  | nil =>
    intro s hd _ _
    exact Or.inl ⟨_, Leaves.now (readBody_end hd), rfl⟩
  | cons b blocks ih =>
    intro s hd hok hn
    have hafter : ∃ y, dat.drop s.wherenow = encode b ++ y ∧ ∀ t : Read, dat.drop t.wherenow = y →
        ReadsOrStops dat (blocks.filterMap Group.ofRecords) t := by
      by_cases hnil : blocks = []
      · subst hnil
        rw [List.intercalate_singleton] at hd
        exact ⟨_, hd, fun t ht => Or.inl ⟨_, Leaves.now (readBody_end ht), rfl⟩⟩
      · rw [List.intercalate_cons_of_ne_nil hnil, List.append_assoc, encode_append, List.append_assoc] at hd
        refine ⟨_, hd, fun t ht => ?_⟩
        have ht' : dat.drop t.wherenow = 32 :: 0 :: (encode ([[32]].intercalate blocks) ++ 0 :: z) := by
          rw [ht, List.singleton_append, encode_cons]
          simp
        have hsep := readBody_separator ht'
        refine (ih { t with files := setDate t, isnest := true, wherenow := t.wherenow + 2 } ?_
          (fun c hc => hok c (List.mem_cons_of_mem b hc)) rfl).before (Goes.one hsep)
        rw [← List.drop_drop, ht']
        rfl
    obtain ⟨y, hy, hrest⟩ := hafter
    cases b with
    | nil => exact hrest s hy
    | cons name entries =>
      have hg := hok (name :: entries) (by simp)
      cases hbad : (⟨name, entries⟩ : Group).bad with
      | true =>
        obtain ⟨good, bad, rest, he, hgood, hb⟩ := Group.bad_entry hbad
        obtain ⟨s', hgo, hn', hlen, hrun⟩ := bad_section (g := ⟨name, entries⟩) hg he hgood hb hy hn
        refine Or.inr ⟨⟨name, entries⟩, good, bad, rest, s', ?_, he, hgood, hb, hgo, hn', hlen, hrun⟩
        exact List.find?_cons_of_pos hbad
      | false =>
        obtain ⟨s', hgo, hd'⟩ := good_section (g := ⟨name, entries⟩) hg (Group.not_bad hbad) hy hn
        exact ((hrest s' hd').cons hbad).before hgo

/-- When readFile rejects packed records, every node it allocated was freed exactly once if and
only if the rejected record follows the name of its section. -/
theorem rejected_leaves_nothing (recs : List (List Byte)) (hok : ∀ r ∈ recs, r = [32] ∨ RecordOk r)
    (z : List Byte) (brk : Addr) (q : ReadResult)
    (hq : ReadFile (some (encode recs ++ 0 :: z)) true brk q) (hret : q.ret = -2) :
    FreedOnce brk q ↔ RejectsFirst recs := by
  have hblocks : ∀ b ∈ recs.splitOn [32], ∀ r ∈ b, RecordOk r := by
    intro b hb r hr
    obtain ⟨hmem, hne⟩ := splitOn_mem b hb r hr
    exact (hok r hmem).resolve_left hne
  have hrun := blocks_run (z := z) (recs.splitOn [32]) (readStart brk)
    (by rw [List.intercalate_splitOn]; rfl) hblocks rfl
  cases hrun with
  | inl hread =>
    obtain ⟨q', hq', hret'⟩ := hread
    have hsame := hq.unique hq'
    rw [Option.some.injEq] at hsame
    rw [← hsame, hret] at hret'
    cases hret'
  | inr hstop =>
    obtain ⟨g, good, bad, rest, s, hfind, hentries, hgood, hbad, hgo, hn, hlen, hleave⟩ := hstop
    have hsame := hq.unique (Leaves.of_goes hgo (Leaves.now hleave))
    rw [Option.some.injEq] at hsame
    rw [hsame, rejected_once hgo hn]
    constructor
    · intro ho
      rw [ho] at hlen
      have hnil := List.eq_nil_of_length_eq_zero hlen.symm
      rw [hnil, List.nil_append] at hentries
      exact ⟨g, bad, rest, hfind, hentries, hbad⟩
    · intro hfirst
      obtain ⟨g', r, rest', hfind', hentries', hr⟩ := hfirst
      have hg : sections recs = (recs.splitOn [32]).filterMap Group.ofRecords := rfl
      rw [hg, hfind, Option.some.injEq] at hfind'
      rw [← hfind', hentries] at hentries'
      cases good with
      | nil => exact List.eq_nil_of_length_eq_zero hlen
      | cons x good =>
        have hx := (List.cons.inj hentries').1
        exact absurd (hx ▸ hgood x (by simp)) hr

/-- The records "s" and "x". -/
theorem rejected_leaves_nothing_short : ∃ q, ReadFile (some (encode [[115], [120]] ++ 0 :: [])) true 0 q ∧
    (FreedOnce 0 q ↔ RejectsFirst [[115], [120]]) := by
  have hok : ∀ r ∈ ([[115], [120]] : List (List Byte)), r = [32] ∨ RecordOk r := by
    intro r hr
    cases List.mem_cons.mp hr with
    | inl hr =>
      rw [hr]
      exact Or.inr ⟨by decide, by decide, by decide⟩
    | inr hr =>
      rw [List.mem_singleton.mp hr]
      exact Or.inr ⟨by decide, by decide, by decide⟩
  have hq : ReadFile (some (encode [[115], [120]] ++ 0 :: [])) true 0 ⟨-2, none, 1, [.freeFile 0]⟩ :=
    ⟨2, by decide⟩
  exact ⟨_, hq, rejected_leaves_nothing [[115], [120]] hok [] 0 _ hq rfl⟩

/-- The records "s", "a:b" and "c": the node of "a:b" is leaked. -/
theorem rejected_leaks_entry : ∃ q,
    ReadFile (some (encode [[115], [97, 58, 98], [99]] ++ 0 :: [])) true 0 q ∧ q.ret = -2 ∧ ¬ FreedOnce 0 q := by
  refine ⟨⟨-2, none, 2, [.freeFile 0]⟩, ⟨3, by decide⟩, rfl, fun h => ?_⟩
  have h₁ := h 1
  simp [Event.frees] at h₁

end TimeTask
