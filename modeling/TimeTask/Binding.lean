import Mathlib.Data.List.Find
import TimeTask.CycList
import TimeTask.Names

/-! toSetCycdata: the sections of the configuration are attached to the loaded
modules, and the modules that no section names are released. -/
namespace TimeTask
open Lib

def nameMatches (m : Mem) (name : List Byte) (a : Addr) : Bool :=
  match m.node a with
  | none => false
  | some c => strIsSame (some name) (some c.libdata.name) nameCharNumMax true == 0

/-- The inner loop of toSetCycdata: the first module that the name fits. -/
def matchModule (m : Mem) (name : List Byte) (chead : Option Addr) : Option (Option Addr) :=
  scan m.nxt (nameMatches m name) m.nodes.brk chead

def setFdate (a f : Addr) (m : Mem) : Mem := m.update a fun c => { c with fdate := some f }

def setLd (a : Addr) (m : Mem) : Mem := m.update a fun c => { c with ld := m.mainld }

def bindLoop (chead : Option Addr) : List (Addr × Filedate) → Mem → Option (Int × Mem)
  | [], m => some (0, m)
  | f :: fs, m =>
    match matchModule m f.2.name chead with
    | none => none
    | some none => some (tcsOtherErr - 1, m)
    | some (some a) =>
      match m.node a with
      | none => none
      | some c =>
        if c.fdate ≠ none then some (tcsOtherErr, m)
        else bindLoop chead fs (setLd a (setFdate a f.1 m))

def sweepLoop : Nat → Option Addr → Mem → Option (Int × Mem)
  | _, none, m => some (0, m)
  | 0, some _, _ => none
  | n + 1, some a, m =>
    match m.node a with
    | none => none
    | some c =>
      if c.fdate = none then
        match freeCycdata (some a) m with
        | none => none
        | some (res, m) => if res ≠ 0 then some (tcsOtherErr - 2, m) else sweepLoop n c.next m
      else sweepLoop n c.next m

def toSetCycdata (fhead : List (Addr × Filedate)) (chead : Option Addr) (m : Mem) :
    Option (Int × Mem) :=
  if fhead = [] ∨ chead = none then some (-1, m)
  else
    match bindLoop chead fhead m with
    | none => none
    | some (r, m) => if r ≠ 0 then some (r, m) else sweepLoop m.nodes.brk chead m

def Mem.nameOf (m : Mem) (a : Addr) : List Byte :=
  match m.node a with
  | none => []
  | some c => c.libdata.name

/-- No two nodes own the same handle, and every owned handle is open. -/
structure HandlesOk (m : Mem) (l : List Addr) : Prop where
  ok : ∀ a ∈ l, ∀ c, m.node a = some c → HandleOk m c
  log : ∀ a ∈ l, ∀ b ∈ l, a ≠ b → ∀ c d, m.node a = some c → m.node b = some d →
    ∀ x, ownLog m c = some x → ownLog m d ≠ some x
  lib : ∀ a ∈ l, ∀ b ∈ l, a ≠ b → ∀ c d, m.node a = some c → m.node b = some d →
    ∀ x, c.libdata.fdlib = some x → d.libdata.fdlib ≠ some x

/-- A loaded module list to which nothing was attached yet. -/
structure ModuleList (m : Mem) (mods : List Addr) : Prop where
  list : m.ListIs mods
  fdate : ∀ a ∈ mods, ∀ c, m.node a = some c → c.fdate = none
  name : ∀ a ∈ mods, NulFree (m.nameOf a) ∧ (m.nameOf a).length < nameCharNumMax
  handles : HandlesOk m mods

def firstModule (m : Mem) (mods : List Addr) (name : List Byte) : Option Addr :=
  mods.find? fun a => decide (SameName name (m.nameOf a))

theorem matchModule_eq {m : Mem} {mods : List Addr} {name : List Byte} {p : Option Addr}
    (hl : Chain m.nxt p mods) (hlen : mods.length ≤ m.nodes.brk)
    (hname : ∀ a ∈ mods, NulFree (m.nameOf a) ∧ (m.nameOf a).length < nameCharNumMax)
    (hn : NulFree name) (hnl : name.length < nameCharNumMax) :
    matchModule m name p = some (firstModule m mods name) := by
  rw [matchModule, scan_chain hl hlen, firstModule]
  congr 1
  apply List.find?_congr
  intro a ha
  obtain ⟨r, hr⟩ := seg_live hl a ha
  obtain ⟨c, hc, _⟩ := Option.map_eq_some_iff.mp hr
  have hc' : m.node a = some c := hc
  obtain ⟨h0, hlt⟩ := hname a ha
  have hnc : m.nameOf a = c.libdata.name := by simp [Mem.nameOf, hc']
  rw [hnc] at h0 hlt ⊢
  have hs := strIsSame_fold name c.libdata.name hn h0 hnl hlt
  simp only [nameMatches, hc', Bool.beq_eq_decide_eq, hs]

theorem firstModule_some {m : Mem} {mods : List Addr} {name : List Byte} {a : Addr}
    (h : firstModule m mods name = some a) : a ∈ mods ∧ SameName name (m.nameOf a) :=
  ⟨List.mem_of_find?_eq_some h, by simpa using List.find?_some h⟩

theorem firstModule_none {m : Mem} {mods : List Addr} {name : List Byte} :
    firstModule m mods name = none ↔ ¬ ∃ a ∈ mods, SameName name (m.nameOf a) := by
  simp [firstModule]

theorem firstModule_eq_iff {m : Mem} {mods : List Addr} {s t : List Byte} {a : Addr}
    (h : firstModule m mods s = some a) : firstModule m mods t = some a ↔ SameName t s := by
  constructor
  · intro ht
    exact (firstModule_some ht).2.trans (firstModule_some h).2.symm
  · intro hts
    have he : (fun b => decide (SameName t (m.nameOf b))) = fun b => decide (SameName s (m.nameOf b)) := by
      funext b
      have hb : SameName t (m.nameOf b) ↔ SameName s (m.nameOf b) :=
        ⟨fun k => hts.symm.trans k, fun k => hts.trans k⟩
      simp [hb]
    rw [firstModule, he]
    exact h

/-- What the first loop answers, read off the first modules of the section names alone. -/
def bindVerdict (first : List Byte → Option Addr) :
    List (Addr × Filedate) → List (Addr × Filedate) → Int
  | _, [] => 0
  | done, f :: fs =>
    if first f.2.name = none then tcsOtherErr - 1
    else if ∃ g ∈ done, first g.2.name = first f.2.name then tcsOtherErr
    else bindVerdict first (done ++ [f]) fs

/-- The section that was attached to the node. -/
def boundTo (first : List Byte → Option Addr) (done : List (Addr × Filedate)) (a : Addr) :
    Option Addr := (done.find? fun f => decide (first f.2.name = some a)).map Prod.fst

def bindNode (ld : Option Addr) (f : Option Addr) (c : Cycdata) : Cycdata :=
  match f with
  | none => c
  | some f => { c with fdate := some f, ld := ld }

/-- The sections `done` were attached and nothing else changed. -/
structure Bound (m₀ : Mem) (first : List Byte → Option Addr) (done : List (Addr × Filedate))
    (m : Mem) : Prop where
  node : ∀ a, m.node a = (m₀.node a).map (bindNode m₀.mainld (boundTo first done a))
  same : m = { m₀ with nodes := m.nodes }
  brk : m.nodes.brk = m₀.nodes.brk

theorem boundTo_nil (first : List Byte → Option Addr) (a : Addr) : boundTo first [] a = none := rfl

theorem boundTo_none_iff {first : List Byte → Option Addr} {done : List (Addr × Filedate)} {a : Addr} :
    boundTo first done a = none ↔ ∀ f ∈ done, first f.2.name ≠ some a := by
  simp [boundTo]

theorem boundTo_snoc {first : List Byte → Option Addr} {done : List (Addr × Filedate)}
    {f : Addr × Filedate} {a : Addr} (h : first f.2.name = some a)
    (hnone : boundTo first done a = none) (b : Addr) :
    boundTo first (done ++ [f]) b = if b = a then some f.1 else boundTo first done b := by
  by_cases hb : b = a
  · subst hb
    have hd : done.find? (fun g => decide (first g.2.name = some b)) = none := by
      simpa [boundTo] using hnone
    simp [boundTo, List.find?_append, hd, h]
  · have hne : ¬ a = b := fun he => hb he.symm
    simp [boundTo, List.find?_append, h, hb, hne]

@[simp] theorem bindNode_next (ld f : Option Addr) (c : Cycdata) : (bindNode ld f c).next = c.next := by
  cases f <;> rfl

@[simp] theorem bindNode_libdata (ld f : Option Addr) (c : Cycdata) :
    (bindNode ld f c).libdata = c.libdata := by
  cases f <;> rfl

theorem Bound.nil (m : Mem) (first : List Byte → Option Addr) : Bound m first [] m := by
  refine ⟨fun a => ?_, rfl, rfl⟩
  have hid : bindNode m.mainld (boundTo first [] a) = id := by
    funext c
    simp [boundTo_nil, bindNode]
  simp [hid]

theorem Bound.nxt {m₀ m : Mem} {first : List Byte → Option Addr} {done : List (Addr × Filedate)}
    (h : Bound m₀ first done m) : m.nxt = m₀.nxt := by
  funext a
  rw [Mem.nxt_eq, Mem.nxt_eq, h.node a, Option.map_map]
  congr 1
  funext c
  simp

theorem Bound.nameOf {m₀ m : Mem} {first : List Byte → Option Addr}
    {done : List (Addr × Filedate)} (h : Bound m₀ first done m) (a : Addr) :
    m.nameOf a = m₀.nameOf a := by
  simp only [Mem.nameOf, h.node a]
  cases m₀.node a <;> simp

theorem Bound.snoc {m₀ m : Mem} {first : List Byte → Option Addr} {done : List (Addr × Filedate)}
    {f : Addr × Filedate} {a : Addr} (h : Bound m₀ first done m) (hf : first f.2.name = some a)
    (hnone : boundTo first done a = none) :
    Bound m₀ first (done ++ [f]) (setLd a (setFdate a f.1 m)) := by
  have hld : m.mainld = m₀.mainld := by rw [h.same]
  refine ⟨fun b => ?_, ?_, by simp [setLd, setFdate, Mem.update, h.brk]⟩
  · rw [boundTo_snoc hf hnone b]
    by_cases hb : b = a
    · subst hb
      have hm : (setFdate b f.1 m).mainld = m₀.mainld := hld
      rw [setLd, Mem.node_update_self, setFdate, Mem.node_update_self, h.node b, hnone]
      simp only [if_true, Option.map_map]
      congr 1
      funext c
      simp [bindNode, ← hm, setFdate]
    · rw [setLd, Mem.node_update_ne _ _ hb, setFdate, Mem.node_update_ne _ _ hb, h.node b]
      simp [hb]
  · rw [setLd, setFdate, Mem.update, Mem.update, h.same]

/-- The first loop computes the verdict and, when it is 0, attaches every section. -/
theorem bindLoop_spec {m₀ : Mem} {mods : List Addr} (hm : ModuleList m₀ mods)
    (fs : List (Addr × Filedate))
    (hfs : ∀ f ∈ fs, NulFree f.2.name ∧ f.2.name.length < nameCharNumMax) :
    ∀ (done : List (Addr × Filedate)) (m : Mem), Bound m₀ (firstModule m₀ mods) done m →
      ∃ m', bindLoop m₀.cychead fs m = some (bindVerdict (firstModule m₀ mods) done fs, m') ∧
        (bindVerdict (firstModule m₀ mods) done fs = 0 →
          Bound m₀ (firstModule m₀ mods) (done ++ fs) m') := by
  induction fs with
  | nil =>
    intro done m hb
    exact ⟨m, rfl, fun _ => by simpa using hb⟩
  | cons f fs ih =>
    intro done m hb
    have hlen : mods.length ≤ m.nodes.brk := by
      rw [hb.brk]
      exact hm.list.length_le
    have hchain : Chain m.nxt m₀.cychead mods := by
      rw [hb.nxt]
      exact hm.list
    have hmatch : matchModule m f.2.name m₀.cychead = some (firstModule m₀ mods f.2.name) := by
      rw [matchModule_eq hchain hlen (fun a ha => by rw [hb.nameOf]; exact hm.name a ha)
        (hfs f (by simp)).1 (hfs f (by simp)).2]
      simp only [firstModule, hb.nameOf]
    cases hfirst : firstModule m₀ mods f.2.name with
    | none =>
      refine ⟨m, ?_, fun hv => ?_⟩
      · simp [bindLoop, hmatch, hfirst, bindVerdict]
      · simp [bindVerdict, hfirst, tcsOtherErr] at hv
    | some a =>
      obtain ⟨c, hc⟩ := hm.list.node (firstModule_some hfirst).1
      have hfd := hm.fdate a (firstModule_some hfirst).1 c hc
      have hnode : m.node a = some (bindNode m₀.mainld (boundTo (firstModule m₀ mods) done a) c) := by
        rw [hb.node a, hc]
        rfl
      cases hbound : boundTo (firstModule m₀ mods) done a with
      | some g =>
        have hex : ∃ g ∈ done, firstModule m₀ mods g.2.name = some a := by
          by_contra hn
          have hnone : boundTo (firstModule m₀ mods) done a = none :=
            boundTo_none_iff.mpr fun g hg he => hn ⟨g, hg, he⟩
          simp [hnone] at hbound
        refine ⟨m, ?_, fun hv => ?_⟩
        · simp only [bindLoop, hmatch, hfirst, hnode, hbound, bindNode, bindVerdict, hex]
          simp
        · simp only [bindVerdict, hfirst, hex] at hv
          simp [tcsOtherErr] at hv
      | none =>
        have hex : ¬ ∃ g ∈ done, firstModule m₀ mods g.2.name = some a := by
          rintro ⟨g, hg, he⟩
          exact boundTo_none_iff.mp hbound g hg he
        have hsnoc := hb.snoc hfirst hbound
        obtain ⟨m', hrun, hb'⟩ := ih (fun g hg => hfs g (List.mem_cons_of_mem f hg)) _ _ hsnoc
        have hv : bindVerdict (firstModule m₀ mods) done (f :: fs) =
            bindVerdict (firstModule m₀ mods) (done ++ [f]) fs := by
          simp only [bindVerdict, hfirst, hex]
          simp
        refine ⟨m', ?_, fun h0 => ?_⟩
        · rw [hv, ← hrun]
          simp [bindLoop, hmatch, hfirst, hnode, hbound, bindNode, hfd]
        · have hb'' := hb' (hv ▸ h0)
          simpa using hb''

theorem bindVerdict_zero_iff (first : List Byte → Option Addr) (fs : List (Addr × Filedate)) :
    ∀ done, bindVerdict first done fs = 0 ↔ (∀ f ∈ fs, first f.2.name ≠ none) ∧
      (∀ g ∈ done, ∀ f ∈ fs, first g.2.name ≠ first f.2.name) ∧
      fs.Pairwise fun g f => first g.2.name ≠ first f.2.name := by
  induction fs with
  | nil => simp [bindVerdict]
  | cons f fs ih =>
    intro done
    by_cases hf : first f.2.name = none
    · simp [bindVerdict, hf, tcsOtherErr]
    · by_cases hex : ∃ g ∈ done, first g.2.name = first f.2.name
      · have hv : bindVerdict first done (f :: fs) ≠ 0 := by
          simp only [bindVerdict, if_neg hf, if_pos hex]
          simp [tcsOtherErr]
        obtain ⟨g, hg, he⟩ := hex
        refine iff_of_false hv ?_
        rintro ⟨_, hd, _⟩
        exact hd g hg f (by simp) he
      · have hv : bindVerdict first done (f :: fs) = bindVerdict first (done ++ [f]) fs := by
          simp only [bindVerdict, if_neg hf, if_neg hex]
        rw [hv, ih]
        simp only [List.pairwise_cons, List.mem_cons, List.mem_append]
        grind

theorem bindVerdict_values (first : List Byte → Option Addr) (fs : List (Addr × Filedate)) :
    ∀ done, bindVerdict first done fs = 0 ∨ bindVerdict first done fs = tcsOtherErr ∨
      bindVerdict first done fs = tcsOtherErr - 1 := by
  induction fs with
  | nil => simp [bindVerdict]
  | cons f fs ih =>
    intro done
    simp only [bindVerdict]
    split_ifs
    · simp
    · simp
    · exact ih (done ++ [f])

theorem chain_head {nxt nxt' : Addr → Option (Option Addr)} {p q : Option Addr} {l : List Addr}
    (hp : Chain nxt p l) (hq : Chain nxt' q l) : p = q := by
  cases l with
  | nil => exact hp.trans hq.symm
  | cons a l => exact hp.1.trans hq.1.symm

theorem ownLog_link (m m' : Mem) (c : Cycdata) (r : Option Addr) (h : m'.mainld = m.mainld) :
    ownLog m' { c with next := r } = ownLog m c := by
  simp [ownLog, h]

theorem HandlesOk.freed {m m' : Mem} {a : Addr} {c : Cycdata} {l : List Addr}
    (h : HandlesOk m (a :: l)) (hc : m.node a = some c) (ha : a ∉ l) (hf : Freed m a c m') :
    HandlesOk m' l := by
  have hold : ∀ b ∈ l, ∀ d, m'.node b = some d → ∃ r, m.node b = some { d with next := r } := by
    intro b hb d hd
    have hba : b ≠ a := by
      rintro rfl
      exact ha hb
    exact body_eq_some (hf.body b hba).symm hd
  have hmain := hf.rest.2.1
  refine ⟨fun b hb d hd => ?_, ?_, ?_⟩
  · obtain ⟨r, hr⟩ := hold b hb d hd
    have hba : a ≠ b := by
      rintro rfl
      exact ha hb
    have hok := h.ok b (List.mem_cons_of_mem a hb) _ hr
    constructor
    · intro x hx hne
      rw [hmain] at hne
      have hopen := hok.log x hx hne
      have hown : ownLog m { d with next := r } = some x := by
        have hmx : ¬ some x = m.mainld := fun he => hne (hx.trans he)
        simp [ownLog, hx, hmx]
      rw [hf.logs]
      cases hoa : ownLog m c with
      | none => simpa [Mem.release, hoa] using hopen
      | some y =>
        have hxy : x ≠ y := by
          rintro rfl
          exact h.log a (by simp) b (List.mem_cons_of_mem a hb) hba c _ hc hr x hoa hown
        simpa [Mem.release, hoa, Heap.cell_free_ne _ hxy] using hopen
    · intro x hx
      have hopen := hok.lib x hx
      rw [hf.libs]
      cases hoa : c.libdata.fdlib with
      | none => simpa [Mem.release, hoa] using hopen
      | some y =>
        have hxy : x ≠ y := by
          rintro rfl
          exact h.lib a (by simp) b (List.mem_cons_of_mem a hb) hba c _ hc hr x hoa hx
        simpa [Mem.release, hoa, Heap.cell_free_ne _ hxy] using hopen
  · intro x hx y hy hxy d e hd he z hz
    obtain ⟨r, hr⟩ := hold x hx d hd
    obtain ⟨s, hs⟩ := hold y hy e he
    have hl := h.log x (List.mem_cons_of_mem a hx) y (List.mem_cons_of_mem a hy) hxy _ _ hr hs z
    rw [ownLog_link m m d r rfl, ownLog_link m m e s rfl] at hl
    have hdz : ownLog m' d = ownLog m d := by simp [ownLog, hmain]
    have hez : ownLog m' e = ownLog m e := by simp [ownLog, hmain]
    rw [hdz] at hz
    rw [hez]
    exact hl hz
  · intro x hx y hy hxy d e hd he z hz
    obtain ⟨r, hr⟩ := hold x hx d hd
    obtain ⟨s, hs⟩ := hold y hy e he
    exact h.lib x (List.mem_cons_of_mem a hx) y (List.mem_cons_of_mem a hy) hxy _ _ hr hs z hz

theorem HandlesOk.mono {m : Mem} {k l : List Addr} (h : HandlesOk m l) (hkl : ∀ a ∈ k, a ∈ l) :
    HandlesOk m k :=
  ⟨fun a ha => h.ok a (hkl a ha), fun a ha b hb => h.log a (hkl a ha) b (hkl b hb),
    fun a ha b hb => h.lib a (hkl a ha) b (hkl b hb)⟩

theorem count_free_releaseEvents (m : Mem) (a b : Addr) (c : Cycdata) :
    (releaseEvents m a c).count (.free b) = if a = b then 1 else 0 := by
  simp only [releaseEvents, List.count_append]
  have h1 : ((ownLog m c).toList.map Event.logDel).count (.free b) = 0 := by
    simp [List.count_eq_zero]
  have h2 : (c.libdata.fdlib.toList.map Event.dlclose).count (.free b) = 0 := by
    simp [List.count_eq_zero]
  rw [h1, h2, List.count_singleton]
  simp

def attached (m : Mem) (a : Addr) : Bool := (m.node a).any fun c => c.fdate.isSome

theorem attached_body {m m' : Mem} {a : Addr} (h : m'.body a = m.body a) :
    attached m' a = attached m a := by
  have he : ∀ n : Mem, attached n a = (n.body a).any fun c => c.fdate.isSome := by
    intro n
    cases hn : n.node a <;> simp [attached, Mem.body, hn]
  rw [he, he, h]

/-- The nodes `gone` were released, each once, and the others kept all but their link. -/
structure Swept (m : Mem) (gone : List Addr) (m' : Mem) : Prop where
  dead : ∀ a ∈ gone, m'.node a = none
  body : ∀ b, b ∉ gone → m'.body b = m.body b
  freed : ∃ es, m'.trace = m.trace ++ es ∧ ∀ a, es.count (.free a) = gone.count a
  rest : m'.cycheadnext = m.cycheadnext ∧ m'.mainld = m.mainld ∧ m'.shead = m.shead ∧
    m'.filehead = m.filehead

theorem Swept.nil (m : Mem) : Swept m [] m :=
  ⟨by simp, fun _ _ => rfl, ⟨[], by simp, by simp⟩, rfl, rfl, rfl, rfl⟩

theorem Swept.cons {m m₁ m' : Mem} {a : Addr} {c : Cycdata} {l : List Addr} (hf : Freed m a c m₁)
    (ha : a ∉ l) (hs : Swept m₁ l m') : Swept m (a :: l) m' := by
  obtain ⟨es, hes, hcount⟩ := hs.freed
  refine ⟨fun b hb => ?_, fun b hb => ?_, ⟨releaseEvents m a c ++ es, ?_, fun b => ?_⟩, ?_⟩
  · rcases List.mem_cons.mp hb with rfl | hb
    · have hbody := hs.body b ha
      rw [Mem.body, Mem.body, hf.gone] at hbody
      simpa using hbody
    · exact hs.dead b hb
  · simp only [List.mem_cons, not_or] at hb
    rw [hs.body b hb.2, hf.body b hb.1]
  · rw [hes, hf.trace, List.append_assoc]
  · rw [List.count_append, count_free_releaseEvents, hcount b, List.count_cons]
    simp [Nat.add_comm]
  · obtain ⟨h1, h2, h3, h4⟩ := hs.rest
    obtain ⟨k1, k2, k3, k4⟩ := hf.rest
    exact ⟨h1.trans k1, h2.trans k2, h3.trans k3, h4.trans k4⟩

/-- The second loop keeps exactly the attached nodes; freeCycdata never fails in it. -/
theorem sweepLoop_spec (rest : List Addr) :
    ∀ (kept : List Addr) (p : Option Addr) (n : Nat) (m : Mem), m.ListIs (kept ++ rest) →
      Chain m.nxt p rest → rest.length ≤ n → HandlesOk m (rest.filter fun a => !attached m a) →
      ∃ m', sweepLoop n p m = some (0, m') ∧ m'.ListIs (kept ++ rest.filter (attached m)) ∧
        Swept m (rest.filter fun a => !attached m a) m' := by
  induction rest with
  | nil =>
    intro kept p n m hl hp _ _
    have hp' : p = none := hp
    subst hp'
    exact ⟨m, by cases n <;> rfl, by simpa using hl, Swept.nil m⟩
  | cons a rest ih =>
    intro kept p n m hl hp hn hh
    have hnd := chain_nodup hp
    have har : a ∉ rest := (List.nodup_cons.mp hnd).1
    obtain ⟨rfl, r, hr, hrest⟩ := hp
    obtain ⟨c, hc⟩ := hl.node (a := a) (by simp)
    have hcr : c.next = r := by
      rw [Mem.nxt_of_node hc] at hr
      exact Option.some.inj hr
    cases n with
    | zero => simp at hn
    | succ n =>
      have hn' : rest.length ≤ n := by simpa using hn
      cases hatt : attached m a with
      | true =>
        have hfd : c.fdate ≠ none := by
          intro he
          simp [attached, hc, he] at hatt
        have hh' : HandlesOk m (rest.filter fun a => !attached m a) := by
          simpa [List.filter_cons, hatt] using hh
        obtain ⟨m', hm', hl', hs'⟩ := ih (kept ++ [a]) r n m (by simpa using hl) hrest hn' hh'
        refine ⟨m', ?_, by simpa [List.filter_cons, hatt] using hl',
          by simpa [List.filter_cons, hatt] using hs'⟩
        simp only [sweepLoop, hc, hfd, if_false, hcr]
        exact hm'
      | false =>
        have hfd : c.fdate = none := by
          cases he : c.fdate with
          | none => rfl
          | some f => simp [attached, hc, he] at hatt
        have hh' : HandlesOk m (a :: rest.filter fun a => !attached m a) := by
          simpa [List.filter_cons, hatt] using hh
        obtain ⟨m₁, hm₁, hl₁, hf₁⟩ := freeCycdata_chain hl hc (hh'.ok a (by simp) c hc)
        have hsame : ∀ b ∈ rest, attached m₁ b = attached m b := by
          intro b hb
          refine attached_body (hf₁.body b ?_)
          rintro rfl
          exact har hb
        have hfa : rest.filter (attached m₁) = rest.filter (attached m) :=
          List.filter_congr hsame
        have hfu : (rest.filter fun a => !attached m₁ a) = rest.filter fun a => !attached m a :=
          List.filter_congr fun b hb => by rw [hsame b hb]
        have haf : a ∉ rest.filter fun a => !attached m a := fun h => har (List.mem_filter.mp h).1
        have hh₁ := hh'.freed hc haf hf₁
        obtain ⟨q, hq, hrest₁⟩ := seg_append.mp hl₁
        have hqr : q = r := chain_head hrest₁ hrest
        subst hqr
        obtain ⟨m', hm', hl', hs'⟩ := ih kept q n m₁ hl₁ hrest₁ hn' (by rw [hfu]; exact hh₁)
        refine ⟨m', ?_, ?_, ?_⟩
        · simp only [sweepLoop, hc, hfd, if_true, hm₁, hcr]
          simpa using hm'
        · rw [hfa] at hl'
          simpa [List.filter_cons, hatt] using hl'
        · rw [hfu] at hs'
          simpa [List.filter_cons, hatt] using Swept.cons hf₁ haf hs'

/-- A non-empty list of sections with names as readFile makes them. -/
structure SectionList (fhead : List (Addr × Filedate)) : Prop where
  ne : fhead ≠ []
  name : ∀ f ∈ fhead, NulFree f.2.name ∧ f.2.name.length < nameCharNumMax

/-- Up to case, the section names are pairwise different and each is some module's name. -/
structure Bindable (m : Mem) (mods : List Addr) (fhead : List (Addr × Filedate)) : Prop where
  distinct : fhead.Pairwise fun f g => ¬ SameName f.2.name g.2.name
  fits : ∀ f ∈ fhead, ∃ a ∈ mods, SameName f.2.name (m.nameOf a)

/-- The module is the first in list order to carry some section's name. -/
def chosen (m : Mem) (mods : List Addr) (fhead : List (Addr × Filedate)) (a : Addr) : Bool :=
  fhead.any fun f => decide (firstModule m mods f.2.name = some a)

/-- The list after a successful toSetCycdata. -/
structure BoundList (m : Mem) (mods : List Addr) (fhead : List (Addr × Filedate)) (m' : Mem) :
    Prop where
  list : m'.ListIs (mods.filter (chosen m mods fhead))
  node : ∀ f ∈ fhead, ∀ a, firstModule m mods f.2.name = some a → ∃ c, m'.node a = some c ∧
    c.fdate = some f.1 ∧ c.ld = m.mainld ∧ SameName f.2.name c.libdata.name
  bijection : (fhead.map fun f => firstModule m mods f.2.name).Perm
    ((mods.filter (chosen m mods fhead)).map some)
  dropped : ∀ a ∈ mods, chosen m mods fhead a = false → m'.node a = none
  once : ∃ es, m'.trace = m.trace ++ es ∧
    ∀ a, es.count (.free a) = (mods.filter fun a => !chosen m mods fhead a).count a

theorem bindVerdict_bindable (m : Mem) (mods : List Addr) (fhead : List (Addr × Filedate)) :
    bindVerdict (firstModule m mods) [] fhead = 0 ↔ Bindable m mods fhead := by
  rw [bindVerdict_zero_iff]
  simp only [List.not_mem_nil, false_implies, implies_true, true_and]
  have hfits : (∀ f ∈ fhead, firstModule m mods f.2.name ≠ none) ↔
      ∀ f ∈ fhead, ∃ a ∈ mods, SameName f.2.name (m.nameOf a) := by
    simp only [ne_eq, firstModule_none, not_not]
  constructor
  · rintro ⟨hf, hp⟩
    refine ⟨?_, hfits.mp hf⟩
    refine hp.imp_of_mem fun {f g} hfm hgm hne hs => ?_
    cases ha : firstModule m mods f.2.name with
    | none => exact hf f hfm ha
    | some a => exact hne (ha.trans ((firstModule_eq_iff ha).mpr hs.symm).symm)
  · rintro ⟨hp, hf⟩
    refine ⟨hfits.mpr hf, hp.imp_of_mem fun {f g} hfm hgm hne he => ?_⟩
    cases ha : firstModule m mods f.2.name with
    | none => exact hfits.mpr hf f hfm ha
    | some a => exact hne ((firstModule_eq_iff ha).mp (he.symm.trans ha)).symm

theorem chosen_iff {m : Mem} {mods : List Addr} {fhead : List (Addr × Filedate)} {a : Addr} :
    chosen m mods fhead a = true ↔ ∃ f ∈ fhead, firstModule m mods f.2.name = some a := by
  simp [chosen]

theorem Bound.attached {m₀ m : Mem} {mods : List Addr} {fhead : List (Addr × Filedate)}
    (hm : ModuleList m₀ mods) (h : Bound m₀ (firstModule m₀ mods) fhead m) {a : Addr} (ha : a ∈ mods) :
    attached m a = chosen m₀ mods fhead a := by
  obtain ⟨c, hc⟩ := hm.list.node ha
  have hfd := hm.fdate a ha c hc
  rw [Bool.eq_iff_iff, chosen_iff]
  cases hb : boundTo (firstModule m₀ mods) fhead a with
  | none =>
    have hn := boundTo_none_iff.mp hb
    simp only [TimeTask.attached, h.node a, hc, hb, Option.map_some, bindNode, Option.any_some, hfd]
    simpa using hn
  | some f =>
    have hn : ¬ ∀ f ∈ fhead, firstModule m₀ mods f.2.name ≠ some a := by
      intro hall
      simp [boundTo_none_iff.mpr hall] at hb
    simp only [TimeTask.attached, h.node a, hc, hb, Option.map_some, bindNode, Option.any_some]
    simpa using hn

theorem boundTo_of_mem {m : Mem} {mods : List Addr} {fhead : List (Addr × Filedate)}
    (hp : fhead.Pairwise fun f g => firstModule m mods f.2.name ≠ firstModule m mods g.2.name)
    {f : Addr × Filedate} (hf : f ∈ fhead) {a : Addr} (ha : firstModule m mods f.2.name = some a) :
    boundTo (firstModule m mods) fhead a = some f.1 := by
  induction fhead with
  | nil => simp at hf
  | cons g fs ih =>
    obtain ⟨hg, hp⟩ := List.pairwise_cons.mp hp
    rcases List.mem_cons.mp hf with rfl | hf
    · simp [boundTo, ha]
    · have hne : firstModule m mods g.2.name ≠ some a := fun he => hg f hf (he.trans ha.symm)
      have hi := ih hp hf
      simpa [boundTo, hne] using hi

/-- One call on any loaded list: what it answers and, when that is 0, what it leaves. -/
theorem toSetCycdata_run {fhead : List (Addr × Filedate)} (hf : SectionList fhead) {m : Mem}
    {mods : List Addr} (hm : ModuleList m mods) :
    ∃ m', toSetCycdata fhead m.cychead m =
        some (if mods = [] then -1 else bindVerdict (firstModule m mods) [] fhead, m') ∧
      (mods ≠ [] → bindVerdict (firstModule m mods) [] fhead = 0 → BoundList m mods fhead m') := by
  cases hmods : mods with
  | nil =>
    have hhead : m.cychead = none := by
      have hl := hm.list
      rw [hmods] at hl
      exact hl
    exact ⟨m, by simp [toSetCycdata, hhead], fun h => absurd rfl h⟩
  | cons b bs =>
    rw [← hmods]
    have hne : mods ≠ [] := by simp [hmods]
    have hhead : m.cychead ≠ none := by
      intro hn
      have hl := hm.list
      rw [Mem.ListIs, hn] at hl
      exact hne (chain_none hl)
    obtain ⟨m₁, hrun, hb⟩ := bindLoop_spec hm fhead hf.name [] m (Bound.nil m _)
    simp only [List.nil_append] at hb
    by_cases hv : bindVerdict (firstModule m mods) [] fhead = 0
    · have hb := hb hv
      have hlist : m₁.ListIs mods := by
        rw [Mem.ListIs, hb.nxt, hb.same]
        exact hm.list
      have hatt : ∀ a ∈ mods, attached m₁ a = chosen m mods fhead a := fun a ha => hb.attached hm ha
      have hloose : ∀ a ∈ mods.filter (fun a => !attached m₁ a), m₁.node a = m.node a := by
        intro a ha
        obtain ⟨ham, hna⟩ := List.mem_filter.mp ha
        rw [hatt a ham] at hna
        have hnone : boundTo (firstModule m mods) fhead a = none := by
          rw [boundTo_none_iff]
          intro f hfm he
          have hc : chosen m mods fhead a = true := chosen_iff.mpr ⟨f, hfm, he⟩
          simp [hc] at hna
        rw [hb.node a, hnone]
        cases m.node a <;> rfl
      have hmain : m₁.mainld = m.mainld := by rw [hb.same]
      have hown : ∀ c, ownLog m₁ c = ownLog m c := by
        intro c
        simp [ownLog, hmain]
      have hh : HandlesOk m₁ (mods.filter fun a => !attached m₁ a) := by
        have h0 := hm.handles.mono (k := mods.filter fun a => !attached m₁ a)
          fun a ha => (List.mem_filter.mp ha).1
        refine ⟨fun a ha c hc => ?_, fun a ha b hb' hab c d hc hd => ?_,
          fun a ha b hb' hab c d hc hd => ?_⟩
        · rw [hloose a ha] at hc
          have hok := h0.ok a ha c hc
          rw [hb.same]
          exact ⟨hok.log, hok.lib⟩
        · rw [hloose a ha] at hc
          rw [hloose b hb'] at hd
          rw [hown, hown]
          exact h0.log a ha b hb' hab c d hc hd
        · rw [hloose a ha] at hc
          rw [hloose b hb'] at hd
          exact h0.lib a ha b hb' hab c d hc hd
      have hch : Chain m₁.nxt m.cychead mods := by
        rw [hb.nxt]
        exact hm.list
      obtain ⟨m', hm', hl', hs⟩ := sweepLoop_spec mods [] m.cychead m₁.nodes.brk m₁
        (by simpa using hlist) hch hlist.length_le hh
      have hfa : mods.filter (attached m₁) = mods.filter (chosen m mods fhead) :=
        List.filter_congr hatt
      have hfu : (mods.filter fun a => !attached m₁ a) = mods.filter fun a => !chosen m mods fhead a :=
        List.filter_congr fun a ha => by rw [hatt a ha]
      rw [hfa, List.nil_append] at hl'
      rw [hfu] at hs
      obtain ⟨hfirst, _, hpair⟩ := (bindVerdict_zero_iff _ _ _).mp hv
      refine ⟨m', ?_, fun _ _ => ⟨hl', fun f hfm a ha => ?_, ?_, fun a ha hc => ?_, ?_⟩⟩
      · simp [toSetCycdata, hf.ne, hhead, hrun, hv, hm', hne]
      · obtain ⟨ham, hsame⟩ := firstModule_some ha
        obtain ⟨c, hc⟩ := hm.list.node ham
        have hbody := hs.body a (by simp [chosen_iff.mpr ⟨f, hfm, ha⟩])
        have hn₁ : m₁.node a = some (bindNode m.mainld (some f.1) c) := by
          rw [hb.node a, hc, boundTo_of_mem hpair hfm ha]
          rfl
        obtain ⟨r, hr⟩ := body_eq_some hbody hn₁
        refine ⟨_, hr, rfl, rfl, ?_⟩
        simpa [Mem.nameOf, hc] using hsame
      · have hnd : (fhead.map fun f => firstModule m mods f.2.name).Nodup :=
          List.pairwise_map.mpr hpair
        have hnd' : ((mods.filter (chosen m mods fhead)).map some).Nodup :=
          ((chain_nodup hm.list).filter _).map (Option.some_injective _)
        rw [List.perm_ext_iff_of_nodup hnd hnd']
        intro o
        simp only [List.mem_map, List.mem_filter, chosen_iff]
        constructor
        · rintro ⟨f, hfm, rfl⟩
          cases ha : firstModule m mods f.2.name with
          | none => exact absurd ha (hfirst f hfm)
          | some a => exact ⟨a, ⟨(firstModule_some ha).1, f, hfm, ha⟩, rfl⟩
        · rintro ⟨a, ⟨_, f, hfm, ha⟩, rfl⟩
          exact ⟨f, hfm, ha⟩
      · exact hs.dead a (List.mem_filter.mpr ⟨ha, by simp [hc]⟩)
      · obtain ⟨es, hes, hcount⟩ := hs.freed
        refine ⟨es, ?_, hcount⟩
        rw [hes, hb.same]
    · exact ⟨m₁, by simp [toSetCycdata, hf.ne, hhead, hrun, hv, hne], fun _ h0 => absurd h0 hv⟩

def DistinctNames (m : Mem) (mods : List Addr) : Prop :=
  ∀ a ∈ mods, ∀ b ∈ mods, SameName (m.nameOf a) (m.nameOf b) → a = b

theorem firstModule_distinct {m : Mem} {mods : List Addr} (hd : DistinctNames m mods)
    {s : List Byte} {a : Addr} :
    firstModule m mods s = some a ↔ a ∈ mods ∧ SameName s (m.nameOf a) := by
  refine ⟨firstModule_some, fun ⟨ha, hs⟩ => ?_⟩
  cases hb : firstModule m mods s with
  | none => exact absurd ⟨a, ha, hs⟩ (firstModule_none.mp hb)
  | some b =>
    obtain ⟨hbm, hsb⟩ := firstModule_some hb
    rw [hd b hbm a ha (hsb.symm.trans hs)]

theorem nameOf_body {m n : Mem} {a : Addr} (h : n.body a = m.body a) : n.nameOf a = m.nameOf a := by
  have he : ∀ k : Mem, k.nameOf a = match k.body a with
      | none => []
      | some c => c.libdata.name := by
    intro k
    cases hk : k.node a <;> simp [Mem.nameOf, Mem.body, hk]
  rw [he, he, h]

theorem firstModule_perm {m n : Mem} {mods nods : List Addr} (hp : nods.Perm mods)
    (hb : ∀ a ∈ mods, n.body a = m.body a) (hd : DistinctNames m mods) :
    firstModule n nods = firstModule m mods := by
  have hn : ∀ a ∈ nods, n.nameOf a = m.nameOf a := fun a ha => nameOf_body (hb a (hp.mem_iff.mp ha))
  have hd' : DistinctNames n nods := by
    intro a ha b hb' hs
    rw [hn a ha, hn b hb'] at hs
    exact hd a (hp.mem_iff.mp ha) b (hp.mem_iff.mp hb') hs
  funext s
  apply Option.ext
  intro a
  rw [firstModule_distinct hd, firstModule_distinct hd', hp.mem_iff]
  constructor
  · rintro ⟨ha, hs⟩
    exact ⟨ha, by rwa [hn a (hp.mem_iff.mpr ha)] at hs⟩
  · rintro ⟨ha, hs⟩
    exact ⟨ha, by rwa [hn a (hp.mem_iff.mpr ha)]⟩

theorem BoundList.fdate {m m' : Mem} {mods : List Addr} {fhead : List (Addr × Filedate)}
    (h : BoundList m mods fhead m') {a : Addr} (ha : a ∈ mods) :
    (m'.node a).bind Cycdata.fdate =
      (fhead.find? fun f => decide (firstModule m mods f.2.name = some a)).map Prod.fst := by
  cases hf : fhead.find? fun f => decide (firstModule m mods f.2.name = some a) with
  | none =>
    have hc : chosen m mods fhead a = false := by
      simpa [chosen, List.find?_eq_none] using hf
    simp [h.dropped a ha hc]
  | some f =>
    obtain ⟨c, hc, hfd, _⟩ := h.node f (List.mem_of_find?_eq_some hf) a (by simpa using List.find?_some hf)
    simp [hc, hfd]

/-- toSetCycdata succeeds exactly when the sections can be attached one to one; then the list is
cut down to the chosen modules, and with distinct names the order of the list is irrelevant. -/
theorem toSetCycdata_binds (fhead : List (Addr × Filedate)) (hf : SectionList fhead) (m : Mem)
    (mods : List Addr) (hm : ModuleList m mods) :
    ∃ r m', toSetCycdata fhead m.cychead m = some (r, m') ∧ r ≠ tcsOtherErr - 2 ∧
      (r = 0 ↔ Bindable m mods fhead) ∧ (r = 0 → BoundList m mods fhead m') ∧
      ∀ n nods, ModuleList n nods → nods.Perm mods → (∀ a ∈ mods, n.body a = m.body a) →
        DistinctNames m mods → ∃ n', toSetCycdata fhead n.cychead n = some (r, n') ∧
          (r = 0 → ∀ a ∈ mods, (n'.node a).bind Cycdata.fdate = (m'.node a).bind Cycdata.fdate) := by
  obtain ⟨m', hrun, hbound⟩ := toSetCycdata_run hf hm
  obtain ⟨f, fs, hcons⟩ := List.exists_cons_of_ne_nil hf.ne
  have hnil : mods = [] → ¬ Bindable m mods fhead := by
    rintro rfl hb
    obtain ⟨a, ha, _⟩ := hb.fits f (by simp [hcons])
    simp at ha
  refine ⟨_, m', hrun, ?_, ?_, ?_, ?_⟩
  · rcases bindVerdict_values (firstModule m mods) fhead [] with hv | hv | hv <;>
      by_cases hmods : mods = [] <;> simp [hmods, hv, tcsOtherErr]
  · by_cases hmods : mods = []
    · simp [hmods, hmods ▸ hnil hmods]
    · simp only [hmods, if_false]
      exact bindVerdict_bindable m mods fhead
  · intro h0
    by_cases hmods : mods = []
    · simp [hmods] at h0
    · exact hbound hmods (by simpa [hmods] using h0)
  · intro n nods hn hp hb hd
    obtain ⟨n', hrun', hbound'⟩ := toSetCycdata_run hf hn
    have hfirst := firstModule_perm hp hb hd
    have hnods : nods = [] ↔ mods = [] := by
      constructor
      · rintro rfl
        exact hp.nil_eq.symm
      · rintro rfl
        exact hp.eq_nil
    refine ⟨n', ?_, fun h0 a ha => ?_⟩
    · rw [hrun', hfirst]
      simp only [hnods]
    · by_cases hmods : mods = []
      · simp [hmods] at ha
      · have hv : bindVerdict (firstModule m mods) [] fhead = 0 := by simpa [hmods] using h0
        have hbm := hbound hmods hv
        have hbn := hbound' (fun h => hmods (hnods.mp h)) (by rw [hfirst]; exact hv)
        rw [hbm.fdate ha, hbn.fdate (hp.mem_iff.mpr ha), hfirst]

def twoModules : Mem :=
  { Mem.init with
    nodes := (Heap.empty.alloc { Cycdata.zero with libdata := ⟨some 0, [97], []⟩, next := some 1 }).alloc
      { Cycdata.zero with libdata := ⟨some 1, [98], []⟩ }
    libs := (Heap.empty.alloc ()).alloc ()
    cychead := some 0
    cycheadnext := some 1 }

theorem twoModules_list : ModuleList twoModules [0, 1] := by
  have h0 : twoModules.node 0 =
      some { Cycdata.zero with libdata := ⟨some 0, [97], []⟩, next := some 1 } := rfl
  have h1 : twoModules.node 1 = some { Cycdata.zero with libdata := ⟨some 1, [98], []⟩ } := rfl
  have hlib : ∀ h, h = 0 ∨ h = 1 → (twoModules.libs.cell h).isSome := by
    rintro h (rfl | rfl) <;> rfl
  refine ⟨⟨rfl, some 1, rfl, rfl, none, rfl, rfl⟩, ?_, ?_, ?_, ?_, ?_⟩
  · intro a ha c hc
    simp only [List.mem_cons, List.not_mem_nil, or_false] at ha
    rcases ha with rfl | rfl
    · rw [h0] at hc
      cases hc
      rfl
    · rw [h1] at hc
      cases hc
      rfl
  · intro a ha
    simp only [List.mem_cons, List.not_mem_nil, or_false] at ha
    rcases ha with rfl | rfl <;> decide
  · intro a ha c hc
    simp only [List.mem_cons, List.not_mem_nil, or_false] at ha
    rcases ha with rfl | rfl
    · rw [h0] at hc
      cases hc
      exact ⟨by simp [Cycdata.zero], fun h hh => hlib h (by simp_all)⟩
    · rw [h1] at hc
      cases hc
      exact ⟨by simp [Cycdata.zero], fun h hh => hlib h (by simp_all)⟩
  · intro a ha b hb _ c d hc _ x hx
    simp only [List.mem_cons, List.not_mem_nil, or_false] at ha
    rcases ha with rfl | rfl
    · rw [h0] at hc
      cases hc
      simp [ownLog, Cycdata.zero, twoModules, Mem.init] at hx
    · rw [h1] at hc
      cases hc
      simp [ownLog, Cycdata.zero, twoModules, Mem.init] at hx
  · intro a ha b hb hab c d hc hd x hx hy
    simp only [List.mem_cons, List.not_mem_nil, or_false] at ha hb
    rcases ha with rfl | rfl <;> rcases hb with rfl | rfl
    · exact hab rfl
    · rw [h0] at hc
      rw [h1] at hd
      cases hc
      cases hd
      simp_all
    · rw [h1] at hc
      rw [h0] at hd
      cases hc
      cases hd
      simp_all
    · exact hab rfl

/-- The section "A" is attached to the module "a"; the module "b" goes. -/
theorem toSetCycdata_binds_one :
    ∃ r m', toSetCycdata [(7, ⟨[65], []⟩)] (some 0) twoModules = some (r, m') ∧ r = 0 ∧
      BoundList twoModules [0, 1] [(7, ⟨[65], []⟩)] m' := by
  obtain ⟨r, m', hrun, _, hr, hb, _⟩ := toSetCycdata_binds [(7, ⟨[65], []⟩)]
    ⟨by simp, by decide⟩ twoModules [0, 1] twoModules_list
  have h0 : r = 0 := hr.mpr ⟨by simp, by decide⟩
  exact ⟨r, m', hrun, h0, hb h0⟩

end TimeTask
