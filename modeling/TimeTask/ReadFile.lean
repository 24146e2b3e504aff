import Mathlib.Data.List.ModifyLast
import TimeTask.LoadFile

/-! readFile: the packed records are read back as a list of sections with their
key:value entries. -/
namespace TimeTask
open Lib

/-- The loop of fetchInf: `some none` at the end of the string, else the place of the colon. -/
def findColon : List Byte → Nat → Option (Option Nat)
  | [], _ => none
  | b :: date, tt =>
    if b = 0 then some none
    else if b = 58 then some (some tt)
    else findColon date (tt + 1)

/-- fetchInf at the position `date` of the buffer; the inner `none` is the NULL it returns. -/
def fetchInf (dat : List Byte) (date : Nat) : Option (Option Onedate) :=
  match findColon (dat.drop date) 0 with
  | none => none
  | some none => some none
  | some (some tt) =>
    if tt = 0 then some none
    else
      match dat[date + tt + 1]? with
      | none => none
      | some b =>
        if b = 0 then some none
        else (strlen (dat.drop (date + tt + 1))).map fun len =>
          some ⟨⟨some date, tt⟩, ⟨some (date + tt + 1), len⟩⟩

/-- The state of readFile: `files` hangs on filefirst, and `onehead` on the local list head. -/
structure Read where
  wherenow : Nat
  isnest : Bool
  files : List (Addr × Filedate)
  onehead : List (Addr × Onedate)
  brk : Addr
deriving DecidableEq, Repr

/-- `res` is what is stored through the second argument, if anything is. -/
structure ReadResult where
  ret : Int
  res : Option (List (Addr × Filedate))
  brk : Addr
  events : List Event
deriving DecidableEq, Repr

/-- `filetem->date = onehead.next`; before the first section filetem is the local filefirst. -/
def setDate (s : Read) : List (Addr × Filedate) :=
  s.files.modifyLast fun f => (f.1, { f.2 with date := s.onehead })

/-- A new section whose name is the record of length `len`, cut to the name field. -/
def Read.newFile (s : Read) (record : List Byte) (len : Nat) : Read where
  isnest := false
  files := s.files ++ [(s.brk, ⟨record.take (nameCharNumMax - 1), []⟩)]
  wherenow := s.wherenow + len + 1
  onehead := []
  brk := s.brk + 1

/-- A new entry behind the others of the section. -/
def Read.newOne (s : Read) (o : Onedate) (len : Nat) : Read :=
  { s with
    onehead := s.onehead ++ [(s.brk, o)]
    wherenow := s.wherenow + len + 1
    brk := s.brk + 1 }

def freeFiledate (dat : List (Addr × Filedate)) : List Event :=
  dat.flatMap fun f => f.2.date.map (fun o => .freeOne o.1) ++ [.freeFile f.1]

theorem freeFiledate_events {dat : List (Addr × Filedate)} {e : Event} (he : e ∈ freeFiledate dat) :
    (∃ a, e = .freeOne a) ∨ ∃ a, e = .freeFile a := by
  simp only [freeFiledate, List.mem_flatMap, List.mem_append, List.mem_map, List.mem_singleton] at he
  obtain ⟨f, _, he⟩ := he
  cases he with
  | inl he =>
    obtain ⟨o, _, ho⟩ := he
    exact Or.inl ⟨o.1, ho.symm⟩
  | inr he => exact Or.inr ⟨f.1, he⟩

def readBody (dat : List Byte) (s : Read) : Pass Read (Option ReadResult) :=
  match dat[s.wherenow]? with
  | none => .leave none
  | some b =>
    if b = 0 then .leave (some ⟨0, some (setDate s), s.brk, []⟩)
    else if b = 32 then
      .again { s with files := setDate s, isnest := true, wherenow := s.wherenow + 2 }
    else
      match strlen (dat.drop s.wherenow) with
      | none => .leave none
      | some len =>
        if s.isnest then .again (s.newFile ((dat.drop s.wherenow).take len) len)
        else
          match fetchInf dat s.wherenow with
          | none => .leave none
          | some none => .leave (some ⟨-2, none, s.brk, freeFiledate s.files⟩)
          | some (some o) => .again (s.newOne o len)

/-- readFile on the buffer `dat` returns `q`; `res` tells whether its second argument is
not NULL and `brk` is the next free identity. -/
def ReadFile (dat : Option (List Byte)) (res : Bool) (brk : Addr) (q : ReadResult) : Prop :=
  match dat, res with
  | some dat, true => Leaves (readBody dat) ⟨0, true, [], [], brk⟩ (some q)
  | _, _ => q = ⟨-1, none, brk, []⟩

/-- The records of one section. -/
structure Group where
  name : List Byte
  entries : List (List Byte)
deriving DecidableEq, Repr

def Group.records (g : Group) : List (List Byte) := g.name :: g.entries

/-- Sections with one separator between two of them, and perhaps one more behind the last. -/
def joinGroups (trail : Bool) : List Group → List (List Byte)
  | [] => []
  | [g] => g.records ++ if trail then [[32]] else []
  | g :: gs => g.records ++ [32] :: joinGroups trail gs

theorem joinGroups_cons (trail : Bool) (g : Group) {gs : List Group} (h : gs ≠ []) :
    joinGroups trail (g :: gs) = g.records ++ [32] :: joinGroups trail gs := by
  cases gs with
  | nil => exact absurd rfl h
  | cons g' gs => rfl

/-- A record that is neither empty nor taken for a separator. -/
structure RecordOk (r : List Byte) : Prop where
  nulFree : NulFree r
  ne : r ≠ []
  head : deref r ≠ 32

def GroupsOk (gs : List Group) : Prop := ∀ g ∈ gs, ∀ r ∈ g.records, RecordOk r

/-- The entry that the record at position `p` makes: the first colon splits it. -/
def entryAt (p : Nat) (r : List Byte) : Option Onedate :=
  match r.findIdx? (· == 58) with
  | none => none
  | some tt =>
    if tt = 0 ∨ tt + 1 = r.length then none
    else some ⟨⟨some p, tt⟩, ⟨some (p + tt + 1), ((r.length - tt - 1 : Nat) : Int)⟩⟩

def entriesAt : Nat → Addr → List (List Byte) → Option (List (Addr × Onedate))
  | _, _, [] => some []
  | p, a, r :: rs =>
    match entryAt p r with
    | none => none
    | some o => (entriesAt (p + r.length + 1) (a + 1) rs).map ((a, o) :: ·)

/-- The section list made of `gs` that start at position `p`. -/
def groupsAt : Nat → Addr → List Group → Option (List (Addr × Filedate))
  | _, _, [] => some []
  | p, a, g :: gs =>
    match entriesAt (p + g.name.length + 1) (a + 1) g.entries with
    | none => none
    | some es =>
      (groupsAt (p + (encode g.records).length + 2) (a + 1 + g.entries.length) gs).map
        ((a, ⟨g.name.take (nameCharNumMax - 1), es⟩) :: ·)

theorem findColon_spec (r z : List Byte) (hr : NulFree r) (k : Nat) :
    findColon (r ++ 0 :: z) k = some ((r.findIdx? (· == 58)).map (· + k)) := by
  induction r generalizing k with
  | nil => rfl
  | cons b r ih =>
    have hb : b ≠ 0 := hr b (by simp)
    have hi := ih (fun x hx => hr x (List.mem_cons_of_mem b hx)) (k + 1)
    by_cases hc : b = 58
    · subst hc
      simp [findColon, List.findIdx?_cons]
    · have hcb : (b == 58) = false := by simpa using hc
      simp only [List.cons_append, findColon, hb, hc, if_false, hi, List.findIdx?_cons, hcb,
        Option.map_map, Bool.false_eq_true]
      congr 2
      funext n
      simp
      omega

/-- fetchInf reads a record as the entry it makes and stays inside the record. -/
theorem fetchInf_spec {dat r z : List Byte} {p : Nat} (hd : dat.drop p = r ++ 0 :: z)
    (hr : NulFree r) : fetchInf dat p = some (entryAt p r) := by
  have hget : ∀ i, dat[p + i]? = (r ++ 0 :: z)[i]? := by
    intro i
    rw [← hd, List.getElem?_drop]
  simp only [fetchInf, hd, findColon_spec r z hr 0, entryAt]
  cases hc : r.findIdx? (· == 58) with
  | none => rfl
  | some tt =>
    have hlt : tt < r.length := by
      rw [List.findIdx?_eq_some_iff_getElem] at hc
      exact hc.1
    by_cases h0 : tt = 0
    · simp [h0]
    · have hdrop : dat.drop (p + tt + 1) = r.drop (tt + 1) ++ 0 :: z := by
        rw [Nat.add_assoc, ← List.drop_drop, hd, List.drop_append_of_le_length (by omega)]
      have hg := hget (tt + 1)
      rw [← Nat.add_assoc] at hg
      have hnul : NulFree (r.drop (tt + 1)) := fun b hb => hr b (List.mem_of_mem_drop hb)
      simp only [Option.map_some, Nat.add_zero, h0, if_false, hg, hdrop, strlen_eq _ z hnul]
      by_cases hend : tt + 1 = r.length
      · simp [hend]
      · have hin : tt + 1 < r.length := by omega
        have hb : (r ++ 0 :: z)[tt + 1]? = some r[tt + 1] := by simp [List.getElem?_append_left, hin]
        have hne : r[tt + 1] ≠ 0 := hr _ (List.getElem_mem hin)
        simp only [hb, hne, if_false, hend, or_false, List.length_drop]
        simp
        omega

theorem record_first {dat r z : List Byte} {p : Nat} (hd : dat.drop p = r ++ 0 :: z)
    (hr : RecordOk r) : ∃ b, dat[p]? = some b ∧ b ≠ 0 ∧ b ≠ 32 := by
  obtain ⟨b, r, rfl⟩ := List.exists_cons_of_ne_nil hr.ne
  refine ⟨b, ?_, hr.nulFree b (by simp), by simpa [deref] using hr.head⟩
  have hget := congrArg (fun l => l[0]?) hd
  simpa using hget

theorem drop_next {dat r z : List Byte} {p : Nat} (hd : dat.drop p = r ++ 0 :: z) :
    dat.drop (p + r.length + 1) = z := by
  rw [Nat.add_assoc, ← List.drop_drop, hd]
  simp [List.drop_append]

theorem readBody_name {dat r z : List Byte} {s : Read} (hd : dat.drop s.wherenow = r ++ 0 :: z)
    (hr : RecordOk r) (hn : s.isnest = true) :
    readBody dat s = .again (s.newFile r r.length) := by
  obtain ⟨b, hb, h0, h32⟩ := record_first hd hr
  simp [readBody, hb, h0, h32, hd, strlen_eq r z hr.nulFree, hn]

theorem readBody_entry {dat r z : List Byte} {s : Read} (hd : dat.drop s.wherenow = r ++ 0 :: z)
    (hr : RecordOk r) (hn : s.isnest = false) :
    readBody dat s =
      match entryAt s.wherenow r with
      | none => .leave (some ⟨-2, none, s.brk, freeFiledate s.files⟩)
      | some o => .again (s.newOne o r.length) := by
  obtain ⟨b, hb, h0, h32⟩ := record_first hd hr
  have hf := fetchInf_spec hd hr.nulFree
  have hl := strlen_eq r z hr.nulFree
  rw [← hd] at hl
  simp only [readBody, hb, h0, h32, hl, hf, hn, if_false]
  cases entryAt s.wherenow r <;> simp

theorem readBody_separator {dat z : List Byte} {s : Read} (hd : dat.drop s.wherenow = 32 :: z) :
    readBody dat s =
      .again { s with files := setDate s, isnest := true, wherenow := s.wherenow + 2 } := by
  have hget : dat[s.wherenow]? = some 32 := by
    have h := congrArg (fun l => l[0]?) hd
    simpa using h
  simp [readBody, hget]

theorem readBody_end {dat z : List Byte} {s : Read} (hd : dat.drop s.wherenow = 0 :: z) :
    readBody dat s = .leave (some ⟨0, some (setDate s), s.brk, []⟩) := by
  have hget : dat[s.wherenow]? = some 0 := by
    have h := congrArg (fun l => l[0]?) hd
    simpa using h
  simp [readBody, hget]

/-- The entries of one section, up to the first one without a proper colon. -/
theorem entries_run {dat : List Byte} (rs : List (List Byte)) : ∀ (s : Read) (z : List Byte),
    dat.drop s.wherenow = encode rs ++ z → (∀ r ∈ rs, RecordOk r) → s.isnest = false →
    match entriesAt s.wherenow s.brk rs with
    | none => ∃ q, Leaves (readBody dat) s (some q) ∧ q.ret = -2 ∧ q.res = none
    | some es => Goes (readBody dat) s { s with
        onehead := s.onehead ++ es
        wherenow := s.wherenow + (encode rs).length
        brk := s.brk + rs.length } := by
  induction rs with
  | nil =>
    intro s z _ _ _
    simpa [entriesAt, encode] using Goes.refl s
  | cons r rs ih =>
    intro s z hd hok hn
    have hd' : dat.drop s.wherenow = r ++ 0 :: (encode rs ++ z) := by
      simpa [encode] using hd
    have hbody := readBody_entry hd' (hok r (by simp)) hn
    cases he : entryAt s.wherenow r with
    | none =>
      rw [he] at hbody
      simp only [entriesAt, he]
      exact ⟨_, Leaves.now hbody, rfl, rfl⟩
    | some o =>
      rw [he] at hbody
      have hi := ih (s.newOne o r.length) z (drop_next hd')
        (fun x hx => hok x (List.mem_cons_of_mem r hx)) hn
      simp only [Read.newOne] at hi
      simp only [entriesAt, he]
      cases hes : entriesAt (s.wherenow + r.length + 1) (s.brk + 1) rs with
      | none =>
        rw [hes] at hi
        obtain ⟨q, hq, hret, hres⟩ := hi
        exact ⟨q, Leaves.step hbody hq, hret, hres⟩
      | some es =>
        rw [hes] at hi
        have hgo := (Goes.one hbody).trans hi
        have hlen : s.wherenow + r.length + 1 + (encode rs).length =
            s.wherenow + (encode (r :: rs)).length := by
          rw [encode_cons]
          simp
          omega
        have hbrk : s.brk + 1 + rs.length = s.brk + (r :: rs).length :=
          Nat.add_right_comm s.brk 1 rs.length
        rw [hlen, hbrk, List.append_assoc] at hgo
        exact hgo

/-- What readFile makes of the sections from one separator on. -/
def GroupsRun (dat : List Byte) (s : Read) (gs : List Group) : Prop :=
  ∃ q, Leaves (readBody dat) s (some q) ∧
    match groupsAt s.wherenow s.brk gs with
    | none => q.ret = -2 ∧ q.res = none
    | some files => q.ret = 0 ∧ q.res = some (s.files ++ files)

theorem setDate_snoc (s : Read) (fs : List (Addr × Filedate)) (a : Addr) (f : Filedate)
    (h : s.files = fs ++ [(a, f)]) : setDate s = fs ++ [(a, { f with date := s.onehead })] := by
  rw [setDate, h, List.modifyLast_concat]

/-- Behind the records of a section, with its entries on the local list. -/
def Read.behind (s : Read) (g : Group) (es : List (Addr × Onedate)) : Read where
  isnest := false
  files := s.files ++ [(s.brk, ⟨g.name.take (nameCharNumMax - 1), []⟩)]
  wherenow := s.wherenow + (encode g.records).length
  onehead := es
  brk := s.brk + 1 + g.entries.length

/-- Behind the separator of a section, with its entries in its node. -/
def Read.closed (s : Read) (g : Group) (es : List (Addr × Onedate)) : Read where
  isnest := true
  files := s.files ++ [(s.brk, ⟨g.name.take (nameCharNumMax - 1), es⟩)]
  wherenow := s.wherenow + (encode g.records).length + 2
  onehead := es
  brk := s.brk + 1 + g.entries.length

theorem setDate_behind (s : Read) (g : Group) (es : List (Addr × Onedate)) :
    setDate (s.behind g es) = (s.closed g es).files :=
  setDate_snoc (s.behind g es) s.files s.brk ⟨g.name.take (nameCharNumMax - 1), []⟩ rfl

theorem setDate_closed (s : Read) (g : Group) (es : List (Addr × Onedate)) :
    setDate (s.closed g es) = (s.closed g es).files :=
  setDate_snoc (s.closed g es) s.files s.brk ⟨g.name.take (nameCharNumMax - 1), es⟩ rfl

theorem drop_behind {dat y : List Byte} {s : Read} {g : Group} (es : List (Addr × Onedate))
    (hd : dat.drop s.wherenow = encode g.records ++ y) : dat.drop (s.behind g es).wherenow = y := by
  rw [Read.behind, ← List.drop_drop, hd]
  simp

/-- One section, from its name to the byte behind its last entry. -/
theorem group_run {dat : List Byte} (g : Group) (hg : ∀ r ∈ g.records, RecordOk r) (s : Read)
    (z : List Byte) (hd : dat.drop s.wherenow = encode g.records ++ z) (hn : s.isnest = true) :
    match entriesAt (s.wherenow + g.name.length + 1) (s.brk + 1) g.entries with
    | none => ∃ q, Leaves (readBody dat) s (some q) ∧ q.ret = -2 ∧ q.res = none
    | some es => Goes (readBody dat) s (s.behind g es) := by
  have hd' : dat.drop s.wherenow = g.name ++ 0 :: (encode g.entries ++ z) := by
    rw [hd, Group.records, encode_cons]
    simp
  have hname := readBody_name hd' (hg g.name (by simp [Group.records])) hn
  have hrun := entries_run g.entries (s.newFile g.name g.name.length) z (drop_next hd')
    (fun r hr => hg r (by simp [Group.records, hr])) rfl
  simp only [Read.newFile] at hrun
  cases hes : entriesAt (s.wherenow + g.name.length + 1) (s.brk + 1) g.entries with
  | none =>
    rw [hes] at hrun
    obtain ⟨q, hq, hret, hres⟩ := hrun
    exact ⟨q, Leaves.step hname hq, hret, hres⟩
  | some es =>
    rw [hes] at hrun
    have hlen : s.wherenow + g.name.length + 1 + (encode g.entries).length =
        s.wherenow + (encode g.records).length := by
      simp [Group.records, encode_cons]
      omega
    rw [hlen] at hrun
    exact (Goes.one hname).trans hrun

theorem after_group (trail : Bool) (g : Group) (gs : List Group) (z : List Byte) :
    ∃ y, encode (joinGroups trail (g :: gs)) ++ 0 :: z = encode g.records ++ y ∧
      ((gs = [] ∧ (y = 0 :: z ∨ y = 32 :: 0 :: 0 :: z)) ∨
        (gs ≠ [] ∧ y = 32 :: 0 :: (encode (joinGroups trail gs) ++ 0 :: z))) := by
  cases gs with
  | nil =>
    cases trail with
    | false => exact ⟨0 :: z, by simp [joinGroups], Or.inl ⟨rfl, Or.inl rfl⟩⟩
    | true =>
      refine ⟨32 :: 0 :: 0 :: z, ?_, Or.inl ⟨rfl, Or.inr rfl⟩⟩
      rw [joinGroups, encode_append]
      simp [encode]
  | cons g' gs =>
    refine ⟨_, ?_, Or.inr ⟨by simp, rfl⟩⟩
    rw [joinGroups_cons trail g (by simp), encode_append, encode_cons]
    simp

theorem separator_run {dat y : List Byte} (s : Read) (g : Group) (es : List (Addr × Onedate))
    (hd : dat.drop (s.behind g es).wherenow = 32 :: 0 :: y) :
    Goes (readBody dat) (s.behind g es) (s.closed g es) ∧ dat.drop (s.closed g es).wherenow = y := by
  have hbody := readBody_separator hd
  rw [setDate_behind] at hbody
  refine ⟨Goes.one hbody, ?_⟩
  rw [Read.behind] at hd
  rw [Read.closed, ← List.drop_drop, hd]
  rfl

theorem groups_run {dat : List Byte} (trail : Bool) (gs : List Group) : ∀ (s : Read) (z : List Byte),
    gs ≠ [] → dat.drop s.wherenow = encode (joinGroups trail gs) ++ 0 :: z → GroupsOk gs →
    s.isnest = true → GroupsRun dat s gs := by
  induction gs with
  | nil => exact fun s z h => absurd rfl h
  | cons g gs ih =>
    intro s z _ hd hok hn
    obtain ⟨y, hy, hcase⟩ := after_group trail g gs z
    have hy' := hd.trans hy
    have hrun := group_run g (hok g (by simp)) s y hy' hn
    simp only [GroupsRun, groupsAt]
    cases hes : entriesAt (s.wherenow + g.name.length + 1) (s.brk + 1) g.entries with
    | none =>
      rw [hes] at hrun
      exact hrun
    | some es =>
      rw [hes] at hrun
      have hend := drop_behind es hy'
      rcases hcase with ⟨rfl, rfl | rfl⟩ | ⟨hne, rfl⟩
      · have hlast := readBody_end hend
        rw [setDate_behind] at hlast
        exact ⟨_, Leaves.of_goes hrun (Leaves.now hlast), rfl, rfl⟩
      · obtain ⟨hsep, hnext⟩ := separator_run s g es hend
        have hlast := readBody_end hnext
        rw [setDate_closed] at hlast
        exact ⟨_, Leaves.of_goes (hrun.trans hsep) (Leaves.now hlast), rfl, rfl⟩
      · obtain ⟨hsep, hnext⟩ := separator_run s g es hend
        obtain ⟨q, hq, hres⟩ := ih (s.closed g es) z hne hnext
          (fun x hx => hok x (List.mem_cons_of_mem g hx)) rfl
        rw [Read.closed] at hres
        refine ⟨q, Leaves.of_goes (hrun.trans hsep) hq, ?_⟩
        cases hgs : groupsAt (s.wherenow + (encode g.records).length + 2)
            (s.brk + 1 + g.entries.length) gs with
        | none =>
          rw [hgs] at hres
          exact hres
        | some files =>
          rw [hgs] at hres
          simpa using hres

/-- readFile on packed sections: it succeeds exactly when every entry splits at a colon. -/
theorem readFile_groups {dat z : List Byte} (trail : Bool) (gs : List Group) (hne : gs ≠ [])
    (hd : dat = encode (joinGroups trail gs) ++ 0 :: z) (hok : GroupsOk gs) (brk : Addr) :
    ∃ q, ReadFile (some dat) true brk q ∧
      match groupsAt 0 brk gs with
      | none => q.ret = -2 ∧ q.res = none
      | some files => q.ret = 0 ∧ q.res = some files := by
  obtain ⟨q, hq, hres⟩ := groups_run trail gs ⟨0, true, [], [], brk⟩ z hne (by simpa using hd) hok rfl
  exact ⟨q, hq, by simpa using hres⟩

end TimeTask
