import TimeTask.Binding
import TimeTask.LoadLib
import TimeTask.ReadFile

/-! The way of a section name from the packed configuration to a loaded library. -/
namespace TimeTask
open Lib

/-- What of a name record fits the name field of a filedate. -/
def cutName (n : List Byte) : List Byte := n.take (nameCharNumMax - 1)

/-- The names of the libraries of a directory, as loadLib slices them. -/
def libNames (es : List Entry) : List (List Byte) := (es.filter Entry.candidate).map Entry.chaa

/-- The complete name record of the section behind a filedate pointer. -/
def sectionName (gs : List Group) (files : List (Addr × Filedate)) (f : Addr) : Option (List Byte) :=
  ((files.zip gs).find? fun x => x.1.1 == f).map fun x => x.2.name

/-- Every section drives the library it names, and only sections of one name are reported
as having the same name. -/
structure DrivesNamed (gs : List Group) (files : List (Addr × Filedate)) (m : Mem) : Prop where
  bound : ∀ m', toSetCycdata files m.cychead m = some (0, m') → ∀ l, m'.ListIs l → ∀ a ∈ l,
    ∃ f n, (m'.node a).bind Cycdata.fdate = some f ∧ sectionName gs files f = some n ∧
      SameName n (m'.nameOf a)
  report : ∀ pre f post m₁ a c g, files = pre ++ f :: post → bindLoop m.cychead pre m = some (0, m₁) →
    matchModule m₁ f.2.name m.cychead = some (some a) → m₁.node a = some c → c.fdate = some g →
    ∃ n k, sectionName gs files f.1 = some n ∧ sectionName gs files g = some k ∧ SameName n k

/-- The cut name is some library's name up to case. -/
def Fits (libs : List (List Byte)) (n : List Byte) : Prop := ∃ l ∈ libs, SameName (cutName n) l

instance (libs : List (List Byte)) (n : List Byte) : Decidable (Fits libs n) :=
  List.decidableBEx (fun l => SameName (cutName n) l) libs

/-- What the cut loses never matters: when the cut names can all be bound, none was cut, and
when the first of them that repeats an earlier one is met, the complete names agree too. -/
structure CutHarmless (names libs : List (List Byte)) : Prop where
  bound : (∀ n ∈ names, Fits libs n) →
    names.Pairwise (fun n k => ¬ SameName (cutName n) (cutName k)) →
    ∀ n ∈ names, n.length < nameCharNumMax
  report : ∀ (i j : Nat) (n k : List Byte), names[i]? = some n → names[j]? = some k → j < i →
    (∀ x ∈ names.take (i + 1), Fits libs x) →
    (names.take i).Pairwise (fun n k => ¬ SameName (cutName n) (cutName k)) →
    SameName (cutName k) (cutName n) → SameName k n

theorem cutName_eq {n : List Byte} (h : n.length < nameCharNumMax) : cutName n = n :=
  List.take_of_length_le (Nat.le_pred_of_lt h)

theorem cutName_length (n : List Byte) : (cutName n).length < nameCharNumMax := by
  have h := List.length_take_le (nameCharNumMax - 1) n
  simp only [cutName, nameCharNumMax] at h ⊢
  omega

/-- One filedate for each section, in order, with the cut name. -/
theorem groupsAt_names {p : Nat} {a : Addr} {gs : List Group} {files : List (Addr × Filedate)}
    (h : groupsAt p a gs = some files) :
    files.map (fun f => f.2.name) = gs.map (fun g => cutName g.name) ∧
      (∀ f ∈ files, a ≤ f.1) ∧ (files.map Prod.fst).Nodup := by
  induction gs generalizing p a files with
  | nil =>
    cases h
    simp
  | cons g gs ih =>
    simp only [groupsAt] at h
    cases hes : entriesAt (p + g.name.length + 1) (a + 1) g.entries with
    | none => simp [hes] at h
    | some es =>
      simp only [hes, Option.map_eq_some_iff] at h
      obtain ⟨t, ht, rfl⟩ := h
      obtain ⟨hn, ha, hnd⟩ := ih ht
      have hlt : ∀ f ∈ t, a < f.1 := by
        intro f hf
        have hle := Nat.le_trans (Nat.le_add_right (a + 1) g.entries.length) (ha f hf)
        exact Nat.lt_of_succ_le hle
      refine ⟨by simp [hn, cutName], fun f hf => ?_, ?_⟩
      · cases List.mem_cons.mp hf with
        | inl he => simp [he]
        | inr hf => exact Nat.le_of_lt (hlt f hf)
      · rw [List.map_cons, List.nodup_cons]
        refine ⟨fun hm => ?_, hnd⟩
        obtain ⟨f, hf, he⟩ := List.mem_map.mp hm
        have hl := hlt f hf
        rw [he] at hl
        exact Nat.lt_irrefl a hl

theorem sectionName_at {gs : List Group} {files : List (Addr × Filedate)}
    (hnd : (files.map Prod.fst).Nodup) {i : Nat} {f : Addr × Filedate} {g : Group}
    (hf : files[i]? = some f) (hg : gs[i]? = some g) : sectionName gs files f.1 = some g.name := by
  induction files generalizing gs i with
  | nil => simp at hf
  | cons x files ih =>
    cases gs with
    | nil => simp at hg
    | cons y gs =>
      rw [List.map_cons, List.nodup_cons] at hnd
      cases i with
      | zero =>
        simp only [List.getElem?_cons_zero, Option.some.injEq] at hf hg
        subst hf
        subst hg
        simp [sectionName]
      | succ i =>
        simp only [List.getElem?_cons_succ] at hf hg
        have hne : (x.1 == f.1) = false := by
          rw [beq_eq_false_iff_ne]
          intro he
          exact hnd.1 (he ▸ List.mem_map_of_mem (List.mem_of_getElem? hf))
        have hi := ih hnd.2 hf hg
        simpa [sectionName, hne] using hi

theorem Loaded.nameOf {dirch : List Byte} {m₀ m : Mem} {es : List Entry} (h : Loaded dirch m₀ es m)
    {i : Nat} {e : Entry} (he : es[i]? = some e) : m.nameOf (m₀.nodes.brk + i) = e.chaa := by
  obtain ⟨hb, hs⟩ := h.body i e he
  obtain ⟨syms, hsyms⟩ := Option.isSome_iff_exists.mp hs
  have hn : ∀ a, m.nameOf a = ((m.body a).map fun c => c.libdata.name).getD [] := by
    intro a
    cases hk : m.node a <;> simp [Mem.nameOf, Mem.body, hk]
  rw [hn, hb]
  simp [Entry.built, hsyms, builtNode]

theorem Loaded.mem_index {m₀ : Mem} {es : List Entry} {a : Addr}
    (ha : a ∈ List.range' m₀.nodes.brk es.length) :
    ∃ i e, a = m₀.nodes.brk + i ∧ es[i]? = some e := by
  obtain ⟨i, hi, rfl⟩ := List.mem_range'.mp ha
  exact ⟨i, es[i], by simp, List.getElem?_eq_getElem hi⟩

theorem Loaded.node {dirch : List Byte} {m₀ m : Mem} {es : List Entry} (h : Loaded dirch m₀ es m)
    {i : Nat} {e : Entry} (he : es[i]? = some e) {c : Cycdata}
    (hc : m.node (m₀.nodes.brk + i) = some c) :
    c.fdate = none ∧ c.ld = none ∧ c.libdata.fdlib = some (m₀.libs.brk + i) := by
  obtain ⟨hb, hs⟩ := h.body i e he
  obtain ⟨syms, hsyms⟩ := Option.isSome_iff_exists.mp hs
  simp only [Mem.body, hc, Option.map_some, Entry.built, hsyms, Option.some.injEq] at hb
  have h₁ := congrArg Cycdata.fdate hb
  have h₂ := congrArg Cycdata.ld hb
  have h₃ := congrArg (fun d => d.libdata.fdlib) hb
  exact ⟨h₁, h₂, h₃⟩

/-- What loadLib leaves is a module list to which nothing was attached yet. -/
theorem Loaded.moduleList {dirch : List Byte} {m₀ m : Mem} {es : List Entry}
    (h : Loaded dirch m₀ es m) (hc : ∀ e ∈ es, e.candidate = true) :
    ModuleList m (List.range' m₀.nodes.brk es.length) := by
  have hown : ∀ a ∈ List.range' m₀.nodes.brk es.length, ∀ c, m.node a = some c →
      ownLog m c = none := by
    intro a ha c hn
    obtain ⟨i, e, rfl, he⟩ := Loaded.mem_index ha
    have hld := (h.node he hn).2.1
    simp [ownLog, hld]
  refine ⟨h.list, fun a ha c hn => ?_, fun a ha => ?_, ⟨fun a ha c hn => ⟨?_, ?_⟩, ?_, ?_⟩⟩
  · obtain ⟨i, e, rfl, he⟩ := Loaded.mem_index ha
    exact (h.node he hn).1
  · obtain ⟨i, e, rfl, he⟩ := Loaded.mem_index ha
    rw [h.nameOf he]
    refine ⟨?_, (Entry.chaa_length (hc e (List.mem_of_getElem? he))).2.2⟩
    exact fun b hb => e.nulFree b (List.mem_of_mem_drop (List.mem_of_mem_take hb))
  · obtain ⟨i, e, rfl, he⟩ := Loaded.mem_index ha
    intro l hl
    rw [(h.node he hn).2.1] at hl
    cases hl
  · obtain ⟨i, e, rfl, he⟩ := Loaded.mem_index ha
    intro x hx
    rw [(h.node he hn).2.2] at hx
    cases hx
    rw [h.isOpen i (List.getElem?_eq_some_iff.mp he).1]
    rfl
  · intro a ha b hb hab c d hn hn' x hx
    rw [hown a ha c hn] at hx
    cases hx
  · intro a ha b hb hab c d hn hn' x hx hy
    obtain ⟨i, e, rfl, he⟩ := Loaded.mem_index ha
    obtain ⟨j, e', rfl, he'⟩ := Loaded.mem_index hb
    rw [(h.node he hn).2.2] at hx
    rw [(h.node he' hn').2.2, ← hx] at hy
    have hij := Nat.add_left_cancel (Option.some.inj hy)
    exact hab (by rw [hij])

theorem Loaded.fits_iff {dirch : List Byte} {m₀ m : Mem} {es : List Entry} (h : Loaded dirch m₀ es m)
    (s : List Byte) : (∃ a ∈ List.range' m₀.nodes.brk es.length, SameName s (m.nameOf a)) ↔
      ∃ l ∈ es.map Entry.chaa, SameName s l := by
  constructor
  · intro hex
    obtain ⟨a, ha, hs⟩ := hex
    obtain ⟨i, e, rfl, he⟩ := Loaded.mem_index ha
    rw [h.nameOf he] at hs
    exact ⟨e.chaa, List.mem_map_of_mem (List.mem_of_getElem? he), hs⟩
  · intro hex
    obtain ⟨l, hl, hs⟩ := hex
    obtain ⟨e, he, rfl⟩ := List.mem_map.mp hl
    obtain ⟨i, hi, hie⟩ := List.getElem_of_mem he
    have hget : es[i]? = some e := by rw [List.getElem?_eq_getElem hi, hie]
    refine ⟨m₀.nodes.brk + i, List.mem_range'.mpr ⟨i, hi, by simp⟩, ?_⟩
    rw [h.nameOf hget]
    exact hs

/-- The sections of a file beside the modules they are to be bound to. -/
structure Named (gs : List Group) (files : List (Addr × Filedate)) (libs : List (List Byte)) (m : Mem)
    (mods : List Addr) : Prop where
  ne : gs ≠ []
  names : files.map (fun f => f.2.name) = gs.map fun g => cutName g.name
  nodup : (files.map Prod.fst).Nodup
  nulFree : ∀ g ∈ gs, NulFree g.name
  modules : ModuleList m mods
  fits : ∀ s, (∃ a ∈ mods, SameName s (m.nameOf a)) ↔ ∃ l ∈ libs, SameName s l

section Names
variable {gs : List Group} {files : List (Addr × Filedate)} {libs : List (List Byte)} {m : Mem}
  {mods : List Addr}

theorem Named.at (h : Named gs files libs m mods) {i : Nat} {f : Addr × Filedate}
    (hf : files[i]? = some f) : ∃ g, gs[i]? = some g ∧ f.2.name = cutName g.name := by
  have hi := congrArg (fun l => l[i]?) h.names
  simp only [List.getElem?_map, hf, Option.map_some] at hi
  obtain ⟨g, hg, hn⟩ := Option.map_eq_some_iff.mp hi.symm
  exact ⟨g, hg, hn.symm⟩

theorem Named.at' (h : Named gs files libs m mods) {i : Nat} {g : Group}
    (hg : gs[i]? = some g) : ∃ f, files[i]? = some f ∧ f.2.name = cutName g.name := by
  have hi := congrArg (fun l => l[i]?) h.names
  simp only [List.getElem?_map, hg, Option.map_some] at hi
  exact Option.map_eq_some_iff.mp hi

theorem Named.sectionList (h : Named gs files libs m mods) : SectionList files := by
  refine ⟨?_, fun f hf => ?_⟩
  · intro hn
    have hnames := h.names
    rw [hn] at hnames
    exact h.ne (by simpa using hnames.symm)
  · obtain ⟨i, hi, hie⟩ := List.getElem_of_mem hf
    obtain ⟨g, hg, hn⟩ := h.at (i := i) (f := f) (by rw [List.getElem?_eq_getElem hi, hie])
    rw [hn]
    exact ⟨(h.nulFree g (List.mem_of_getElem? hg)).take _, cutName_length g.name⟩

/-- The first `i` sections can be bound exactly when their cut names fit and differ. -/
theorem Named.bindable_take (h : Named gs files libs m mods) (i : Nat) :
    Bindable m mods (files.take i) ↔ (∀ n ∈ (gs.map Group.name).take i, Fits libs n) ∧
      ((gs.map Group.name).take i).Pairwise fun n k => ¬ SameName (cutName n) (cutName k) := by
  have hnames : (files.take i).map (fun f => f.2.name) =
      ((gs.map Group.name).take i).map cutName := by
    rw [List.map_take, h.names, List.map_take, List.map_map]
    rfl
  have hfits : ∀ n, Fits libs n ↔ ∃ a ∈ mods, SameName (cutName n) (m.nameOf a) :=
    fun n => (h.fits (cutName n)).symm
  constructor
  · intro hb
    constructor
    · intro n hn
      have hm : cutName n ∈ (files.take i).map fun f => f.2.name := by
        rw [hnames]
        exact List.mem_map_of_mem hn
      obtain ⟨f, hf, hfn⟩ := List.mem_map.mp hm
      rw [hfits, ← hfn]
      exact hb.fits f hf
    · have hp : ((files.take i).map fun f => f.2.name).Pairwise fun s t => ¬ SameName s t :=
        List.pairwise_map.mpr hb.distinct
      rw [hnames] at hp
      exact List.pairwise_map.mp hp
  · intro hb
    have hp : (((gs.map Group.name).take i).map cutName).Pairwise fun s t => ¬ SameName s t :=
      List.pairwise_map.mpr hb.2
    rw [← hnames] at hp
    refine ⟨List.pairwise_map.mp hp, fun f hf => ?_⟩
    have hm : f.2.name ∈ ((gs.map Group.name).take i).map cutName := by
      rw [← hnames]
      exact List.mem_map_of_mem hf
    obtain ⟨n, hn, hfn⟩ := List.mem_map.mp hm
    rw [← hfn]
    exact (hfits n).mp (hb.1 n hn)

/-- Binding finds the complete names exactly when no bound name was cut. -/
theorem Named.bound_iff (h : Named gs files libs m mods) :
    (∀ m', toSetCycdata files m.cychead m = some (0, m') → ∀ l, m'.ListIs l → ∀ a ∈ l,
      ∃ f n, (m'.node a).bind Cycdata.fdate = some f ∧ sectionName gs files f = some n ∧
        SameName n (m'.nameOf a)) ↔
    (Bindable m mods files → ∀ n ∈ gs.map Group.name, n.length < nameCharNumMax) := by
  obtain ⟨m', hrun, hbound⟩ := toSetCycdata_run h.sectionList h.modules
  have hname : ∀ {a c}, m'.node a = some c → m'.nameOf a = c.libdata.name := by
    intro a c hc
    simp [Mem.nameOf, hc]
  constructor
  · intro hall hb n hn
    obtain ⟨g, hg, rfl⟩ := List.mem_map.mp hn
    obtain ⟨i, hi, hig⟩ := List.getElem_of_mem hg
    have hgi : gs[i]? = some g := by rw [List.getElem?_eq_getElem hi, hig]
    obtain ⟨f, hf, hfn⟩ := h.at' hgi
    have hfm := List.mem_of_getElem? hf
    have hmods : mods ≠ [] := by
      intro hn
      obtain ⟨a, ha, _⟩ := hb.fits f hfm
      simp [hn] at ha
    have hv := (bindVerdict_bindable m mods files).mpr hb
    rw [if_neg hmods, hv] at hrun
    have hbl := hbound hmods hv
    cases ha : firstModule m mods f.2.name with
    | none => exact absurd (hb.fits f hfm) (firstModule_none.mp ha)
    | some a =>
      obtain ⟨c, hc, hfd, _, hsame⟩ := hbl.node f hfm a ha
      have hmem : a ∈ mods.filter (chosen m mods files) :=
        List.mem_filter.mpr ⟨(firstModule_some ha).1, chosen_iff.mpr ⟨f, hfm, ha⟩⟩
      obtain ⟨f', n, hf', hn, hs⟩ := hall m' hrun _ hbl.list a hmem
      have hff : f' = f.1 := by
        simp only [hc, Option.bind_some, hfd, Option.some.injEq] at hf'
        exact hf'.symm
      subst hff
      rw [sectionName_at h.nodup hf hgi] at hn
      cases hn
      rw [hname hc] at hs
      have hlen := hs.length.trans hsame.symm.length
      rw [hlen, hfn]
      exact cutName_length g.name
  · intro hlens m'' hrun' l hl a ha
    rw [hrun] at hrun'
    simp only [Option.some.injEq, Prod.mk.injEq] at hrun'
    obtain ⟨hr, rfl⟩ := hrun'
    have hmods : mods ≠ [] := by
      intro hn
      simp [hn] at hr
    rw [if_neg hmods] at hr
    have hb := (bindVerdict_bindable m mods files).mp hr
    have hbl := hbound hmods hr
    rw [chain_unique hl hbl.list] at ha
    obtain ⟨f, hfm, hfirst⟩ := chosen_iff.mp (List.mem_filter.mp ha).2
    obtain ⟨c, hc, hfd, _, hsame⟩ := hbl.node f hfm a hfirst
    obtain ⟨i, hi, hie⟩ := List.getElem_of_mem hfm
    have hfi : files[i]? = some f := by rw [List.getElem?_eq_getElem hi, hie]
    obtain ⟨g, hg, hfn⟩ := h.at hfi
    refine ⟨f.1, g.name, by simp [hc, hfd], sectionName_at h.nodup hfi hg, ?_⟩
    rw [hname hc]
    rwa [hfn, cutName_eq (hlens hb _ (List.mem_map_of_mem (List.mem_of_getElem? hg)))] at hsame

/-- Once the sections `pre` are bound, the search for a module still answers as before. -/
theorem Named.look (h : Named gs files libs m mods) {pre : List (Addr × Filedate)} {m₁ : Mem}
    (hb : Bound m (firstModule m mods) pre m₁) {f : Addr × Filedate} (hf : f ∈ files) :
    matchModule m₁ f.2.name m.cychead = some (firstModule m mods f.2.name) := by
  have hsec := h.sectionList.name f hf
  have hchain : Chain m₁.nxt m.cychead mods := by
    rw [hb.nxt]
    exact h.modules.list
  have hlen : mods.length ≤ m₁.nodes.brk := by
    rw [hb.brk]
    exact h.modules.list.length_le
  rw [matchModule_eq hchain hlen (fun a ha => by rw [hb.nameOf]; exact h.modules.name a ha) hsec.1 hsec.2]
  simp only [firstModule, hb.nameOf]

theorem Named.fdate (h : Named gs files libs m mods) {pre : List (Addr × Filedate)} {m₁ : Mem}
    (hb : Bound m (firstModule m mods) pre m₁) {a : Addr} (ha : a ∈ mods) {c : Cycdata}
    (hc : m₁.node a = some c) : c.fdate = boundTo (firstModule m mods) pre a := by
  obtain ⟨d, hd⟩ := h.modules.list.node ha
  have hfd := h.modules.fdate a ha d hd
  rw [hb.node a, hd, Option.map_some, Option.some.injEq] at hc
  subst hc
  cases boundTo (firstModule m mods) pre a <;> simp [bindNode, hfd]

/-- The report about the section at position `i`, once the ones before it are bound. -/
theorem Named.report_iff (h : Named gs files libs m mods) :
    (∀ pre f post m₁ a c g, files = pre ++ f :: post → bindLoop m.cychead pre m = some (0, m₁) →
      matchModule m₁ f.2.name m.cychead = some (some a) → m₁.node a = some c → c.fdate = some g →
      ∃ n k, sectionName gs files f.1 = some n ∧ sectionName gs files g = some k ∧ SameName n k) ↔
    (∀ (i j : Nat) (n k : List Byte), (gs.map Group.name)[i]? = some n →
      (gs.map Group.name)[j]? = some k → j < i →
      (∀ x ∈ (gs.map Group.name).take (i + 1), Fits libs x) →
      ((gs.map Group.name).take i).Pairwise (fun n k => ¬ SameName (cutName n) (cutName k)) →
      SameName (cutName k) (cutName n) → SameName k n) := by
  have hsec := h.sectionList.name
  constructor
  · intro hrep i j n k hn hk hji hfits hpair hsame
    simp only [List.getElem?_map, Option.map_eq_some_iff] at hn hk
    obtain ⟨g, hg, rfl⟩ := hn
    obtain ⟨g', hg', rfl⟩ := hk
    obtain ⟨f, hf, hfn⟩ := h.at' hg
    obtain ⟨f', hf', hfn'⟩ := h.at' hg'
    have hlt := (List.getElem?_eq_some_iff.mp hf).1
    have hsplit : files = files.take i ++ f :: files.drop (i + 1) := by
      have hcons := List.drop_eq_getElem_cons hlt
      rw [(List.getElem?_eq_some_iff.mp hf).2] at hcons
      rw [← hcons, List.take_append_drop]
    have hsub : ∀ x ∈ (gs.map Group.name).take i, x ∈ (gs.map Group.name).take (i + 1) :=
      fun x hx => (List.take_subset_take_left _ (Nat.le_succ i)) hx
    have hb := (h.bindable_take i).mpr ⟨fun x hx => hfits x (hsub x hx), hpair⟩
    have hv := (bindVerdict_bindable m mods (files.take i)).mpr hb
    obtain ⟨m₁, hrun, hbound⟩ := bindLoop_spec h.modules (files.take i)
      (fun x hx => hsec x (List.mem_of_mem_take hx)) [] m (Bound.nil m _)
    have hbound := hbound hv
    rw [hv] at hrun
    rw [List.nil_append] at hbound
    have hfit : Fits libs g.name := by
      apply hfits
      rw [← List.map_take]
      refine List.mem_map_of_mem (List.mem_of_getElem? (i := i) ?_)
      rw [List.getElem?_take_of_lt (Nat.lt_succ_self i), hg]
    have hex := (h.fits (cutName g.name)).mpr hfit
    cases ha : firstModule m mods f.2.name with
    | none =>
      rw [hfn] at ha
      exact absurd hex (firstModule_none.mp ha)
    | some a =>
      have ha' : firstModule m mods f'.2.name = some a := by
        rw [firstModule_eq_iff ha, hfn, hfn']
        exact hsame
      have hmem' : f' ∈ files.take i := by
        apply List.mem_of_getElem? (i := j)
        rw [List.getElem?_take_of_lt hji, hf']
      have hpair' := (bindVerdict_zero_iff _ _ _).mp hv
      have hto := boundTo_of_mem hpair'.2.2 hmem' ha'
      obtain ⟨c, hc⟩ := h.modules.list.node (firstModule_some ha).1
      have hc₁ := hbound.node a
      rw [hc, Option.map_some] at hc₁
      have hfd := h.fdate hbound (firstModule_some ha).1 hc₁
      have hm := h.look hbound (List.mem_of_getElem? hf)
      rw [ha] at hm
      obtain ⟨n, k, hn, hk, hnk⟩ := hrep _ f _ m₁ a _ f'.1 hsplit hrun hm hc₁ (hfd.trans hto)
      rw [sectionName_at h.nodup hf hg] at hn
      rw [sectionName_at h.nodup hf' hg'] at hk
      cases hn
      cases hk
      exact hnk.symm
  · intro hcut pre f post m₁ a c g hsplit hrun hm hc hfd
    have hlen : pre.length < files.length := by simp [hsplit]
    have hpre : files.take pre.length = pre := by simp [hsplit]
    have hfi : files[pre.length]? = some f := by simp [hsplit]
    have hsub : ∀ x ∈ pre, x ∈ files := fun x hx => by simp [hsplit, hx]
    obtain ⟨m₂, hrun₂, hbound⟩ := bindLoop_spec h.modules pre (fun x hx => hsec x (hsub x hx)) [] m
      (Bound.nil m _)
    rw [hrun₂] at hrun
    simp only [Option.some.injEq, Prod.mk.injEq] at hrun
    obtain ⟨hv, rfl⟩ := hrun
    have hbound := hbound hv
    rw [List.nil_append] at hbound
    rw [h.look hbound (List.mem_of_getElem? hfi), Option.some.injEq] at hm
    have hto := h.fdate hbound (firstModule_some hm).1 hc
    rw [hfd] at hto
    obtain ⟨f', hfind, hg⟩ := Option.map_eq_some_iff.mp hto.symm
    have hf'm := List.mem_of_find?_eq_some hfind
    have hf'a : firstModule m mods f'.2.name = some a := by simpa using List.find?_some hfind
    obtain ⟨j, hj, hje⟩ := List.getElem_of_mem hf'm
    have hf'j : files[j]? = some f' := by
      rw [hsplit, List.getElem?_append_left hj, List.getElem?_eq_getElem hj, hje]
    obtain ⟨gi, hgi, hni⟩ := h.at hfi
    obtain ⟨gj, hgj, hnj⟩ := h.at hf'j
    have hb := (bindVerdict_bindable m mods pre).mp hv
    rw [← hpre] at hb
    obtain ⟨hfits, hpair⟩ := (h.bindable_take pre.length).mp hb
    have hsame := (firstModule_eq_iff hm).mp hf'a
    rw [hni, hnj] at hsame
    have hfiti : Fits libs gi.name := by
      rw [Fits, ← h.fits, ← hni]
      exact ⟨a, (firstModule_some hm).1, (firstModule_some hm).2⟩
    have hfits' : ∀ x ∈ (gs.map Group.name).take (pre.length + 1), Fits libs x := by
      intro x hx
      rw [List.take_add_one, List.getElem?_map, hgi] at hx
      cases List.mem_append.mp hx with
      | inl hx => exact hfits x hx
      | inr hx =>
        have hxe : x = gi.name := by simpa using hx
        rw [hxe]
        exact hfiti
    have hcutij := hcut pre.length j gi.name gj.name (by simp [hgi]) (by simp [hgj]) hj hfits' hpair
      hsame
    refine ⟨gi.name, gj.name, sectionName_at h.nodup hfi hgi, ?_, hcutij.symm⟩
    rw [← hg]
    exact sectionName_at h.nodup hf'j hgj

end Names

theorem named_of_run {dat z : List Byte} (gs : List Group) (trail : Bool) (hne : gs ≠ [])
    (hd : dat = encode (joinGroups trail gs) ++ 0 :: z) (hok : GroupsOk gs) {brk : Addr}
    {q : ReadResult} {files : List (Addr × Filedate)} (hq : ReadFile (some dat) true brk q)
    (hres : q.res = some files) {dirch : List Byte} {es : List Entry} {m₀ m : Mem}
    (h0 : m₀.cychead = none) (hlib : loadLib (some dirch) (some es) m₀ = some (0, m)) :
    Named gs files (libNames es) m
      (List.range' m₀.nodes.brk (es.filter Entry.candidate).length) := by
  obtain ⟨q', hq', hgroups⟩ := readFile_groups trail gs hne hd hok brk
  have hqq : q = q' := by
    have hu := Leaves.unique hq hq'
    exact Option.some.inj hu
  subst hqq
  have hfiles : groupsAt 0 brk gs = some files := by
    cases hg : groupsAt 0 brk gs with
    | none =>
      rw [hg] at hgroups
      rw [hgroups.2] at hres
      cases hres
    | some fs =>
      rw [hg] at hgroups
      rw [hgroups.2] at hres
      exact hres
  obtain ⟨hnames, _, hnd⟩ := groupsAt_names hfiles
  have hloaded := loadLib_loaded h0 hlib
  exact ⟨hne, hnames, hnd, fun g hg => (hok g hg g.name (by simp [Group.records])).nulFree,
    hloaded.moduleList fun e he => (List.mem_filter.mp he).2, hloaded.fits_iff⟩

/-- Sections drive the libraries they name exactly when cutting the names does no harm. -/
theorem sections_drive_named {dat z : List Byte} (gs : List Group) (trail : Bool) (hne : gs ≠ [])
    (hd : dat = encode (joinGroups trail gs) ++ 0 :: z) (hok : GroupsOk gs) {brk : Addr}
    {q : ReadResult} {files : List (Addr × Filedate)} (hq : ReadFile (some dat) true brk q)
    (hres : q.res = some files) {dirch : List Byte} {es : List Entry} {m₀ m : Mem}
    (h0 : m₀.cychead = none) (hlib : loadLib (some dirch) (some es) m₀ = some (0, m)) :
    DrivesNamed gs files m ↔ CutHarmless (gs.map Group.name) (libNames es) := by
  have hn := named_of_run gs trail hne hd hok hq hres h0 hlib
  have hall := hn.bindable_take files.length
  have hlen : (gs.map Group.name).length = files.length := by
    have hl := congrArg List.length hn.names
    simpa using hl.symm
  rw [List.take_length, ← hlen, List.take_length] at hall
  constructor
  · intro h
    refine ⟨fun hf hp => ?_, hn.report_iff.mp h.report⟩
    exact hn.bound_iff.mp h.bound (hall.mpr ⟨hf, hp⟩)
  · intro h
    refine ⟨hn.bound_iff.mpr fun hb => ?_, hn.report_iff.mpr h.report⟩
    obtain ⟨hf, hp⟩ := hall.mp hb
    exact h.bound hf hp

theorem aGroup_ok (n : Nat) (hn : n ≠ 0) : GroupsOk [⟨List.replicate n 97, []⟩] := by
  intro g hg r hr
  rw [List.mem_singleton.mp hg] at hr
  rw [List.mem_singleton.mp hr]
  obtain ⟨k, rfl⟩ := Nat.exists_eq_succ_of_ne_zero hn
  refine ⟨fun b hb => ?_, by simp, by simp [List.replicate_succ, deref]⟩
  rw [(List.mem_replicate.mp hb).2]
  decide

theorem cutHarmless_short {names libs : List (List Byte)} (h : ∀ n ∈ names, n.length < nameCharNumMax) :
    CutHarmless names libs := by
  refine ⟨fun _ _ => h, fun i j n k hi hj _ _ _ hsame => ?_⟩
  rw [cutName_eq (h n (List.mem_of_getElem? hi)), cutName_eq (h k (List.mem_of_getElem? hj))] at hsame
  exact hsame

/-- The sections "a" and 31 letters "a", the longest name there is. -/
def twoGroups : List Group := [⟨[97], [[107, 58, 118]]⟩, ⟨List.replicate 31 97, [[107, 58, 119], [108, 58, 118]]⟩]

theorem twoGroups_ok : GroupsOk twoGroups := by
  intro g hg r hr
  simp only [twoGroups, List.mem_cons, List.not_mem_nil, or_false] at hg
  obtain rfl | rfl := hg
  all_goals
    simp only [Group.records, List.mem_cons, List.not_mem_nil, or_false] at hr
  · obtain rfl | rfl := hr <;> exact ⟨by decide, by decide, by decide⟩
  · obtain rfl | rfl | rfl := hr <;> exact ⟨by decide, by decide, by decide⟩

/-- Each of them has its library, the directory lists them the other way round. -/
theorem sections_drive_named_two : ∃ q files m,
    ReadFile (some (encode (joinGroups true twoGroups) ++ [0])) true 0 q ∧ q.res = some files ∧ files.length = 2 ∧
      loadLib (some [46]) (some [aLib 31, aLib 1]) Mem.init = some (0, m) ∧ DrivesNamed twoGroups files m := by
  obtain ⟨q, hq, _, hres⟩ := readFile_groups true twoGroups (by simp [twoGroups]) rfl twoGroups_ok 0 (z := [])
  have hlib : ∃ m, loadLib (some [46]) (some [aLib 31, aLib 1]) Mem.init = some (0, m) := ⟨_, rfl⟩
  obtain ⟨m, hlib⟩ := hlib
  have hshort : CutHarmless (twoGroups.map Group.name) (libNames [aLib 31, aLib 1]) := cutHarmless_short (by decide)
  exact ⟨q, _, m, hq, hres, rfl, hlib, (sections_drive_named twoGroups true (by simp [twoGroups]) rfl twoGroups_ok
    hq hres rfl hlib).mpr hshort⟩

/-- A section of 32 letters "a" is bound to the library of 31. -/
theorem section_drives_other : ∃ q files m,
    ReadFile (some (encode [List.replicate 32 97] ++ [0])) true 0 q ∧ q.res = some files ∧
      loadLib (some [46]) (some [aLib 31]) Mem.init = some (0, m) ∧
      ¬ DrivesNamed [⟨List.replicate 32 97, []⟩] files m := by
  obtain ⟨q, hq, _, hres⟩ := readFile_groups false [⟨List.replicate 32 97, []⟩] (by simp) rfl
    (aGroup_ok 32 (by decide)) 0 (z := [])
  have hlib : ∃ m, loadLib (some [46]) (some [aLib 31]) Mem.init = some (0, m) := ⟨_, rfl⟩
  obtain ⟨m, hlib⟩ := hlib
  refine ⟨q, _, m, hq, hres, hlib, fun h => ?_⟩
  have hn := named_of_run [⟨List.replicate 32 97, []⟩] false (by simp) rfl
    (aGroup_ok 32 (by decide)) hq hres rfl hlib
  have hb : Bindable _ _ _ := (hn.bindable_take 1).mpr ⟨by decide, by decide⟩
  have hlen := hn.bound_iff.mp h.bound hb (List.replicate 32 97) (by simp)
  rw [List.length_replicate] at hlen
  exact absurd hlen (by decide)

end TimeTask
