import TimeTask.Boot
import TimeTask.Config
import TimeTask.Lib.PairUp
import TimeTask.LogLines
import TimeTask.Nesting
import TimeTask.SectionNames

/-! From the text of the configuration and the names in the library directory to the module list
that the daemon runs. -/
namespace TimeTask
open Lib

/-- The node `a` does not own the library `x`. -/
def NotOwner (m : Mem) (a x : Addr) : Prop := ∀ c, m.node a = some c → c.libdata.fdlib ≠ some x

theorem NotOwner.body {m n : Mem} {a x : Addr} (h : NotOwner m a x) (hb : n.body a = m.body a) :
    NotOwner n a x := by
  intro c hc
  obtain ⟨r, hr⟩ := body_eq_some hb.symm hc
  have hn := h _ hr
  exact hn

/-- What a release of the node `a` leaves alone. -/
structure Spares (a : Addr) (m n : Mem) : Prop where
  body : ∀ b, b ≠ a → n.body b = m.body b
  libs : ∀ x, NotOwner m a x → n.libs.cell x = m.libs.cell x ∧ NotOwner n a x
  rest : n.mainld = m.mainld ∧ n.shead = m.shead ∧ n.filehead = m.filehead

theorem Spares.refl (a : Addr) (m : Mem) : Spares a m m :=
  ⟨fun _ _ => rfl, fun _ hx => ⟨rfl, hx⟩, rfl, rfl, rfl⟩

theorem Spares.trans {a : Addr} {m n p : Mem} (h : Spares a m n) (k : Spares a n p) : Spares a m p := by
  refine ⟨fun b hb => (k.body b hb).trans (h.body b hb), fun x hx => ?_, k.rest.1.trans h.rest.1,
    k.rest.2.1.trans h.rest.2.1, k.rest.2.2.trans h.rest.2.2⟩
  obtain ⟨hcell, hno⟩ := h.libs x hx
  exact ⟨(k.libs x hno).1.trans hcell, (k.libs x hno).2⟩

theorem Spares.update {m : Mem} {a : Addr} {f : Cycdata → Cycdata}
    (hf : ∀ c, (f c).libdata.fdlib = c.libdata.fdlib ∨ (f c).libdata.fdlib = none) :
    Spares a m (m.update a f) := by
  refine ⟨fun b hb => ?_, fun x hx => ⟨rfl, fun c hc => ?_⟩, rfl, rfl, rfl⟩
  · rw [Mem.body, Mem.node_update_ne m f hb, Mem.body]
  · rw [Mem.node_update_self, Option.map_eq_some_iff] at hc
    obtain ⟨d, hd, hdc⟩ := hc
    rw [← hdc]
    cases hf d with
    | inl he => rw [he]; exact hx d hd
    | inr he => rw [he]; simp

/-- A cleanup changes no other node and closes no library but that of its node. -/
theorem exec_spares {m n : Mem} {a : Addr} {s : Cleanup} (he : s.exec a m = some n) : Spares a m n := by
  simp only [Cleanup.exec] at he
  cases hc : m.node a with
  | none => simp [hc] at he
  | some c =>
    rw [hc] at he
    cases s with
    | fdate =>
      cases he
      exact Spares.update fun _ => Or.inl rfl
    | ld =>
      cases he
      exact Spares.update fun _ => Or.inl rfl
    | next =>
      cases he
      exact Spares.update fun _ => Or.inl rfl
    | fdlib =>
      cases he
      exact Spares.update fun _ => Or.inr rfl
    | free =>
      cases he
      refine ⟨fun b hb => ?_, fun x _ => ⟨rfl, fun d hd => ?_⟩, rfl, rfl, rfl⟩
      · simp [Mem.body, Mem.node, Mem.emit, Heap.cell_free_ne m.nodes hb]
      · simp [Mem.node, Mem.emit] at hd
    | logDel =>
      have hlog : ∀ l, TimeTask.logDel l m = some n → Spares a m n := by
        intro l hl
        cases l with
        | none =>
          cases hl
          exact Spares.refl a m
        | some l =>
          simp only [TimeTask.logDel] at hl
          cases hcell : m.logs.cell l with
          | none => simp [hcell] at hl
          | some u =>
            simp only [hcell, Option.some.injEq] at hl
            subst hl
            exact ⟨fun _ _ => rfl, fun _ hx => ⟨rfl, hx⟩, rfl, rfl, rfl⟩
      simp only at he
      split_ifs at he
      · exact hlog c.ld he
      · cases he
        exact Spares.refl a m
    | dlclose =>
      simp only at he
      cases hl : c.libdata.fdlib with
      | none =>
        simp only [hl] at he
        cases he
        exact Spares.refl a m
      | some h =>
        simp only [hl, TimeTask.dlclose] at he
        cases hcell : m.libs.cell h with
        | none => simp [hcell] at he
        | some u =>
          simp only [hcell, Option.some.injEq] at he
          subst he
          refine ⟨fun _ _ => rfl, fun x hx => ⟨?_, hx⟩, rfl, rfl, rfl⟩
          have hne : x ≠ h := fun hxh => hx c hc (hxh ▸ hl)
          exact Heap.cell_free_ne m.libs hne

theorem run_spares {a : Addr} (ss : List Cleanup) : ∀ {m n : Mem}, Cleanup.run a ss m = some n →
    Spares a m n := by
  induction ss with
  | nil =>
    intro m n h
    cases h
    exact Spares.refl a m
  | cons s ss ih =>
    intro m n h
    obtain ⟨m₁, hs, h⟩ := Option.bind_eq_some_iff.mp h
    exact (exec_spares hs).trans (ih h)

theorem unlink_spares {m n : Mem} {a : Addr} {BB : Option Addr} (h : unlinkCycdata a BB m = some n) :
    Spares a m n := by
  have hbody : ∀ {p : Mem}, p.body = m.body → p.libs = m.libs → p.mainld = m.mainld → p.shead = m.shead →
      p.filehead = m.filehead → Spares a m p := by
    intro p hb hl h1 h2 h3
    exact ⟨fun b _ => congrFun hb b, fun x hx => ⟨by rw [hl], hx.body (congrFun hb a)⟩, h1, h2, h3⟩
  cases BB with
  | none =>
    simp only [unlinkCycdata] at h
    cases hh : m.cychead with
    | none => simp [hh] at h
    | some x =>
      rw [hh] at h
      obtain ⟨c, _, he⟩ := Option.map_eq_some_iff.mp h
      subst he
      exact hbody rfl rfl rfl rfl rfl
  | some b =>
    simp only [unlinkCycdata] at h
    cases hc : m.node a with
    | none => simp [hc] at h
    | some c =>
      cases hd : m.node b with
      | none => simp [hc, hd] at h
      | some d =>
        simp only [hc, hd, Option.some.injEq] at h
        subst h
        exact hbody (body_update_next m b c.next) rfl rfl rfl rfl

theorem freeCycdata_spares {m n : Mem} {a : Addr} {r : Int} (h : freeCycdata (some a) m = some (r, n)) :
    Spares a m n := by
  simp only [freeCycdata] at h
  cases hf : freeSearch m a m.nodes.brk m.cychead none with
  | none => simp [hf] at h
  | some o =>
    rw [hf] at h
    cases o with
    | none =>
      cases h
      exact Spares.refl a m
    | some BB =>
      obtain ⟨m₁, hr, he⟩ := Option.map_eq_some_iff.mp h
      cases he
      obtain ⟨m₂, hu, hr⟩ := Option.bind_eq_some_iff.mp hr
      exact (unlink_spares hu).trans (run_spares freeCleanup hr)

/-- The second loop of toSetCycdata leaves a node with a section as it is, and its library open. -/
theorem sweepLoop_keeps {a x : Addr} (n : Nat) : ∀ {p : Option Addr} {m m' : Mem} {r : Int},
    sweepLoop n p m = some (r, m') → attached m a = true → (∀ b, b ≠ a → NotOwner m b x) →
    m'.body a = m.body a ∧ m'.libs.cell x = m.libs.cell x ∧
      m'.mainld = m.mainld ∧ m'.shead = m.shead ∧ m'.filehead = m.filehead := by
  induction n with
  | zero =>
    intro p m m' r h _ _
    cases p with
    | none =>
      cases h
      exact ⟨rfl, rfl, rfl, rfl, rfl⟩
    | some b => cases h
  | succ n ih =>
    intro p m m' r h hatt hown
    cases p with
    | none =>
      cases h
      exact ⟨rfl, rfl, rfl, rfl, rfl⟩
    | some b =>
      simp only [sweepLoop] at h
      cases hc : m.node b with
      | none => simp [hc] at h
      | some c =>
        simp only [hc] at h
        by_cases hfd : c.fdate = none
        · rw [if_pos hfd] at h
          have hab : a ≠ b := by
            intro he
            subst he
            simp [attached, hc, hfd] at hatt
          cases hfree : freeCycdata (some b) m with
          | none => simp [hfree] at h
          | some q =>
            obtain ⟨res, m₁⟩ := q
            have hs := freeCycdata_spares hfree
            have hbody := hs.body a hab
            obtain ⟨hcell, hno⟩ := hs.libs x (hown b hab.symm)
            rw [hfree] at h
            simp only at h
            split_ifs at h
            · cases h
              exact ⟨hbody, hcell, hs.rest⟩
            · have hown₁ : ∀ d, d ≠ a → NotOwner m₁ d x := by
                intro d hd
                by_cases hdb : d = b
                · exact hdb ▸ hno
                · exact (hown d hd).body (hs.body d hdb)
              obtain ⟨h1, h2, h3, h4, h5⟩ := ih h ((attached_body hbody).trans hatt) hown₁
              exact ⟨h1.trans hbody, h2.trans hcell, h3.trans hs.rest.1, h4.trans hs.rest.2.1,
                h5.trans hs.rest.2.2⟩
        · rw [if_neg hfd] at h
          exact ih h hatt hown

def wants (e : Entry) (f : Addr × Filedate) : Bool := decide (SameName f.2.name e.chaa)

/-- The node `a` stands for the library `e`, which is open, with the section `f` attached. -/
structure Serves (dirch : List Byte) (m : Mem) (a : Addr) (e : Entry) (f : Addr × Filedate) : Prop where
  section_mem : f ∈ m.filehead
  same : SameName f.2.name e.chaa
  node : ∃ h syms, e.lib = some syms ∧ m.libs.cell h = some () ∧ m.body a =
    some { builtNode ⟨h, e.chaa, e.chbb dirch, syms⟩ with fdate := some f.1, ld := m.mainld }

/-- The module list is that of the bindings. -/
def Runs (dirch : List Byte) (m : Mem) (l : List (Entry × Addr × Filedate)) : Prop :=
  ∃ mods, m.ListIs mods ∧ List.Forall₂ (fun a p => Serves dirch m a p.1 p.2) mods l

section Loaded
variable {dirch : List Byte} {m₀ m : Mem} {es : List Entry}

theorem Loaded.firstModule (h : Loaded dirch m₀ es m) (f : Addr × Filedate) :
    firstModule m (List.range' m₀.nodes.brk es.length) f.2.name =
      (es.findIdx? fun e => wants e f).map (m₀.nodes.brk + ·) := by
  have hname : ∀ i (hi : i < es.length), m.nameOf (m₀.nodes.brk + i) = es[i].chaa :=
    fun i hi => h.nameOf (List.getElem?_eq_getElem hi)
  rw [TimeTask.firstModule, List.range'_eq_map_range, List.find?_map]
  congr 1
  apply Option.ext
  intro i
  rw [List.find?_range_eq_some, List.findIdx?_eq_some_iff_getElem]
  constructor
  · intro hs
    obtain ⟨hp, hi, hlow⟩ := hs
    have hi := List.mem_range.mp hi
    refine ⟨hi, ?_, fun j hj => ?_⟩
    · simpa [wants, hname i hi] using hp
    · have hjn := hlow j hj
      simpa [wants, hname j (Nat.lt_trans hj hi)] using hjn
  · intro hs
    obtain ⟨hi, hp, hlow⟩ := hs
    refine ⟨?_, List.mem_range.mpr hi, fun j hj => ?_⟩
    · simpa [wants, hname i hi] using hp
    · have hjn := hlow j hj
      simpa [wants, hname j (Nat.lt_trans hj hi)] using hjn

theorem Loaded.chosen (h : Loaded dirch m₀ es m) (files : List (Addr × Filedate)) :
    (List.range' m₀.nodes.brk es.length).filter
        (chosen m (List.range' m₀.nodes.brk es.length) files) =
      ((List.range es.length).filter fun i =>
        files.any fun f => es.findIdx? (fun e => wants e f) == some i).map (m₀.nodes.brk + ·) := by
  rw [List.range'_eq_map_range, List.filter_map, ← List.range'_eq_map_range]
  congr 1
  refine List.filter_congr fun i _ => ?_
  simp only [Function.comp_apply, TimeTask.chosen]
  congr 1
  funext f
  rw [h.firstModule f]
  rw [Bool.eq_iff_iff, decide_eq_true_iff, beq_iff_eq]
  cases es.findIdx? fun e => wants e f with
  | none => simp
  | some j => simp

theorem Loaded.notOwner (h : Loaded dirch m₀ es m) (h0 : m₀.nodes.brk = 0) {i : Nat} {b : Addr}
    (hb : b ≠ m₀.nodes.brk + i) : NotOwner m b (m₀.libs.brk + i) := by
  intro c hc
  have hlt : b < m.nodes.brk := m.nodes.lt_brk hc
  rw [h.brk, h0, Nat.zero_add] at hlt
  have hbe : b = m₀.nodes.brk + b := by rw [h0, Nat.zero_add]
  rw [hbe] at hc hb
  rw [(h.node (List.getElem?_eq_getElem hlt) hc).2.2]
  intro he
  have hbi := Nat.add_left_cancel (Option.some.inj he)
  exact hb (by rw [hbi])

theorem Loaded.bound_body (h : Loaded dirch m₀ es m) {first : List Byte → Option Addr}
    {files : List (Addr × Filedate)} {m₁ : Mem} (hb : Bound m first files m₁) {i : Nat} {e : Entry}
    (he : es[i]? = some e) {f : Addr} (hf : boundTo first files (m₀.nodes.brk + i) = some f) :
    ∃ syms, e.lib = some syms ∧ m₁.body (m₀.nodes.brk + i) =
      some { builtNode ⟨m₀.libs.brk + i, e.chaa, e.chbb dirch, syms⟩ with fdate := some f, ld := m.mainld } := by
  obtain ⟨hbody, hlib⟩ := h.body i e he
  obtain ⟨syms, hsyms⟩ := Option.isSome_iff_exists.mp hlib
  refine ⟨syms, hsyms, ?_⟩
  rw [Entry.built, hsyms, Option.map_some] at hbody
  obtain ⟨c, hc, hcb⟩ := Option.map_eq_some_iff.mp hbody
  rw [Mem.body, hb.node, hf, hc, ← hcb]
  rfl

/-- When toSetCycdata succeeds on what loadLib has left, the module list is that of the bindings. -/
theorem Loaded.runs (h : Loaded dirch m₀ es m) (hc : ∀ e ∈ es, e.candidate = true)
    (h0 : m₀.nodes.brk = 0) (hs : SectionList m.filehead) {m' : Mem}
    (hrun : toSetCycdata m.filehead m.cychead m = some (0, m')) :
    Runs dirch m' (pairUp wants m.filehead es) ∧
      m'.mainld = m.mainld ∧ m'.shead = m.shead ∧ m'.filehead = m.filehead := by
  have hm := h.moduleList hc
  obtain ⟨m₂, hrun₂, hbl⟩ := toSetCycdata_run hs hm
  rw [hrun] at hrun₂
  obtain ⟨hv, hm₂⟩ := Prod.ext_iff.mp (Option.some.inj hrun₂)
  simp only at hv hm₂
  subst hm₂
  have hmods : List.range' m₀.nodes.brk es.length ≠ [] := by
    intro hn
    rw [if_pos hn] at hv
    cases hv
  rw [if_neg hmods] at hv
  have hlist := (hbl hmods hv.symm).list
  obtain ⟨hfirst, _, hpair⟩ := (bindVerdict_zero_iff _ _ _).mp hv.symm
  -- the two loops of the call
  obtain ⟨m₁, hbind, hbound⟩ := bindLoop_spec hm m.filehead hs.name [] m (Bound.nil m _)
  have hb := hbound hv.symm
  rw [List.nil_append] at hb
  have hne : ¬ (m.filehead = [] ∨ m.cychead = none) := by
    intro he
    rw [toSetCycdata, if_pos he] at hrun
    cases hrun
  rw [toSetCycdata, if_neg hne, hbind, ← hv] at hrun
  simp only [ne_eq, not_true_eq_false, if_false] at hrun
  have hkeeps : ∀ {i : Nat} {e : Entry} {f : Addr × Filedate}, es[i]? = some e → f ∈ m.filehead →
      es.findIdx? (fun x => wants x f) = some i → wants e f = true →
      Serves dirch m' (m₀.nodes.brk + i) e f ∧
        m'.mainld = m.mainld ∧ m'.shead = m.shead ∧ m'.filehead = m.filehead := by
    intro i e f he hf hi hw
    have hfm : TimeTask.firstModule m (List.range' m₀.nodes.brk es.length) f.2.name = some (m₀.nodes.brk + i) := by
      rw [h.firstModule f, hi]
      rfl
    obtain ⟨syms, hsyms, hbody⟩ := h.bound_body hb he (boundTo_of_mem hpair hf hfm)
    have hatt : attached m₁ (m₀.nodes.brk + i) = true := by
      obtain ⟨c, hcn, hcb⟩ := Option.map_eq_some_iff.mp hbody
      have hfd : c.fdate = some f.1 := congrArg Cycdata.fdate hcb
      simp [attached, hcn, hfd]
    have hown : ∀ b, b ≠ m₀.nodes.brk + i → NotOwner m₁ b (m₀.libs.brk + i) := by
      intro b hbi c hcn
      rw [hb.node b] at hcn
      obtain ⟨d, hd, hdc⟩ := Option.map_eq_some_iff.mp hcn
      rw [← hdc, bindNode_libdata]
      exact h.notOwner h0 hbi d hd
    obtain ⟨h1, h2, h3, h4, h5⟩ := sweepLoop_keeps m₁.nodes.brk hrun hatt hown
    have hopen := h.isOpen i (List.getElem?_eq_some_iff.mp he).1
    rw [hb.same] at h2 h3 h4 h5
    exact ⟨⟨h5 ▸ hf, by simpa [wants] using hw, m₀.libs.brk + i, syms, hsyms, h2.trans hopen,
      by rw [h1, hbody, h3]⟩, h3, h4, h5⟩
  have hidx := pairUp_indices wants m.filehead es []
  have hnil : (m.filehead.filter fun b => ([] : List Entry).all fun a => !wants a b) = m.filehead :=
    List.filter_eq_self.mpr fun _ _ => rfl
  rw [hnil] at hidx
  refine ⟨⟨_, hlist, ?_⟩, ?_⟩
  · rw [h.chosen m.filehead, List.forall₂_map_left_iff, List.range_eq_range']
    refine hidx.imp fun i p hp => ?_
    exact (hkeeps hp.1 hp.2.1 hp.2.2.2 hp.2.2.1).1
  · -- some section is attached, and its library tells about the globals
    obtain ⟨f, hf⟩ := List.exists_mem_of_ne_nil m.filehead hs.ne
    cases hi : es.findIdx? fun x => wants x f with
    | none =>
      refine absurd ?_ (hfirst f hf)
      rw [h.firstModule f, hi]
      rfl
    | some i =>
      obtain ⟨hlt, hw, _⟩ := List.findIdx?_eq_some_iff_getElem.mp hi
      exact (hkeeps (List.getElem?_eq_getElem hlt) hf hi hw).2

end Loaded

/-- Every library can be loaded, and each section has a library of its own. -/
structure Startable (names : List (List Byte)) (es : List Entry) : Prop where
  good : ∀ e ∈ es, e.candidate = true → e.good = true
  distinct : names.Pairwise fun s t => ¬ SameName s t
  fits : ∀ s ∈ names, ∃ e ∈ es, e.candidate = true ∧ SameName s e.chaa

theorem Stops.negative {e : Entry} {m m' : Mem} {ret : Int} (h : Stops e m ret m') : ret < 0 := by
  cases h <;> decide

def configured (head : List Byte) (fs : List (Addr × Filedate)) : Mem :=
  { Mem.init with shead := some head, filehead := fs }

section Boot
variable {dirch : List Byte} (head : List Byte) {fs : List (Addr × Filedate)} {es : List Entry}

/-- loadLib and toSetCycdata succeed exactly when the sections can be served, and then they have
made the module list of the bindings. -/
theorem boot_outcome (hs : SectionList fs)
    (hfit : ∀ e ∈ es, e.candidate = true → (e.chbb dirch).length < 64) :
    ∃ res m, boot dirch (some es) (configured head fs) = some (res, m) ∧
      (res < 0 ↔ ¬ Startable (fs.map fun f => f.2.name) es) ∧
      (¬ res < 0 → Runs dirch m (pairUp wants fs (es.filter Entry.candidate)) ∧
        m.mainld = some 0 ∧ m.shead = some head ∧ m.filehead = fs) := by
  have hnil : (configured head fs).ListIs [] := rfl
  obtain ⟨ret, m₁, hload⟩ := loadLib_returns hnil (fun hn => absurd rfl hn) hfit
  obtain ⟨m₂, happ, hend⟩ := loadLib_ends hnil (fun hn => absurd rfl hn) hload
  cases hfind : (es.filter Entry.candidate).find? fun e => !e.good with
  | some e =>
    rw [hfind] at hend
    have hneg := Stops.negative hend
    refine ⟨ret, m₁, by simp only [boot, hload, if_pos hneg], iff_of_true hneg fun hst => ?_,
      fun hn => absurd hneg hn⟩
    obtain ⟨hm, hc⟩ := List.mem_filter.mp (List.mem_of_find?_eq_some hfind)
    have hbad := List.find?_some hfind
    simp [hst.good e hm hc] at hbad
  | none =>
    rw [hfind] at hend
    have hgood : ∀ e ∈ es, e.candidate = true → e.good = true := by
      intro e he hc
      simpa using List.find?_eq_none.mp hfind e (List.mem_filter.mpr ⟨he, hc⟩)
    cases hcands : es.filter Entry.candidate with
    | nil =>
      rw [hcands] at hend
      have hneg : ret < 0 := by
        rw [hend.2]
        decide
      refine ⟨ret, m₁, by simp only [boot, hload, if_pos hneg], iff_of_true hneg fun hst => ?_,
        fun hn => absurd hneg hn⟩
      obtain ⟨f, hf⟩ := List.exists_mem_of_ne_nil fs hs.ne
      obtain ⟨e, he, hc, _⟩ := hst.fits f.2.name (List.mem_map_of_mem hf)
      have hm : e ∈ es.filter Entry.candidate := List.mem_filter.mpr ⟨he, hc⟩
      rw [hcands] at hm
      cases hm
    | cons c cs =>
      have hret : ret = 0 := by
        rw [hend.2, hcands, if_neg (by simp)]
      subst hret
      have hloaded := loadLib_loaded rfl hload
      have hcand : ∀ e ∈ es.filter Entry.candidate, e.candidate = true := fun e he => (List.mem_filter.mp he).2
      have hml := hloaded.moduleList hcand
      have hfile : m₁.filehead = fs := hloaded.rest.2.2.2
      obtain ⟨m, hset, hbl⟩ := toSetCycdata_run hs hml
      have hmods : List.range' (configured head fs).nodes.brk (es.filter Entry.candidate).length ≠ [] := by
        simp [hcands]
      rw [if_neg hmods] at hset
      have hboot : boot dirch (some es) (configured head fs) =
          some (bindVerdict (firstModule m₁ (List.range' (configured head fs).nodes.brk
            (es.filter Entry.candidate).length)) [] fs, m) := by
        simp only [boot, hload, lt_irrefl, if_false, hfile, hset]
      have hbindable : Bindable m₁ (List.range' (configured head fs).nodes.brk
          (es.filter Entry.candidate).length) fs ↔ Startable (fs.map fun f => f.2.name) es := by
        constructor
        · intro hb
          refine ⟨hgood, List.pairwise_map.mpr hb.distinct, fun s hsm => ?_⟩
          obtain ⟨f, hf, hfs⟩ := List.mem_map.mp hsm
          obtain ⟨l, hl, hsame⟩ := (hloaded.fits_iff s).mp (hfs ▸ hb.fits f hf)
          obtain ⟨e, he, hel⟩ := List.mem_map.mp hl
          obtain ⟨hem, hec⟩ := List.mem_filter.mp he
          exact ⟨e, hem, hec, hel ▸ hsame⟩
        · intro hst
          refine ⟨List.pairwise_map.mp hst.distinct, fun f hf => (hloaded.fits_iff f.2.name).mpr ?_⟩
          obtain ⟨e, he, hc, hsame⟩ := hst.fits f.2.name (List.mem_map_of_mem hf)
          exact ⟨e.chaa, List.mem_map_of_mem (List.mem_filter.mpr ⟨he, hc⟩), hsame⟩
      have hzero := (bindVerdict_bindable m₁ _ fs).trans hbindable
      have hvals := bindVerdict_values (firstModule m₁ (List.range' (configured head fs).nodes.brk
        (es.filter Entry.candidate).length)) fs []
      simp only [tcsOtherErr] at hvals
      refine ⟨_, m, hboot, ?_, fun hn => ?_⟩
      · rw [← hzero]
        omega
      · have hv : bindVerdict (firstModule m₁ (List.range' (configured head fs).nodes.brk
            (es.filter Entry.candidate).length)) [] fs = 0 := by omega
        rw [hv] at hset
        have hs₁ : SectionList m₁.filehead := hfile.symm ▸ hs
        obtain ⟨hr, h1, h2, h3⟩ := hloaded.runs hcand rfl hs₁ (by rw [hfile]; exact hset)
        rw [hfile] at hr h3
        rw [hcands] at hr
        exact ⟨hr, h1.trans hloaded.rest.2.1, h2.trans hloaded.rest.2.2.1, h3⟩

end Boot

/-- What loadFile and readFile give main for the text of the configuration. -/
structure Answers (malloc : Nat → Bool) (text : List Byte) (brk : Addr) (conf : Option (List Byte))
    (files : Option (List (Addr × Filedate))) : Prop where
  load : LoadFile malloc (some ⟨text, false, false⟩) conf
  parse : ∀ buf, conf = some buf → ∃ q, ReadFile (some buf) true brk q ∧
    files = if q.ret = 0 then q.res else none

theorem sectionList_of_meaning {text buf : List Byte} {confs : List Conf} {fs : List (Addr × Filedate)}
    (h : meaning text = .read confs) (hfs : fs.map (fun f => f.2.conf buf) = confs) : SectionList fs := by
  obtain ⟨trail, gs, _, hne, _, hplain, hgs⟩ := meaning_read h
  rw [hgs] at hfs
  refine ⟨?_, fun f hf => ?_⟩
  · intro hn
    rw [hn] at hfs
    exact hne (List.map_eq_nil_iff.mp hfs.symm)
  · have hm : f.2.conf buf ∈ gs.map Group.conf := hfs ▸ List.mem_map_of_mem hf
    obtain ⟨g, hg, hgf⟩ := List.mem_map.mp hm
    have hname : f.2.name = cutName g.name := (congrArg Conf.name hgf).symm
    rw [hname]
    exact ⟨(hplain g hg g.name (by simp [Group.records])).nulFree.take _, cutName_length g.name⟩

section Answers
variable {malloc : Nat → Bool} {text : List Byte} {brk : Addr} {conf : Option (List Byte)}
  {files : Option (List (Addr × Filedate))}

theorem Answers.read (h : Answers malloc text brk conf files)
    (hg : Grants malloc (encode (recordsOf false text)).length) {confs : List Conf}
    (hm : meaning text = .read confs) : ∃ buf fs, conf = some buf ∧ files = some fs ∧
      fs.map (fun f => f.2.conf buf) = confs ∧ SectionList fs := by
  have hr := reads_meaning hg brk
  rw [hm] at hr
  obtain ⟨buf, q, fs, hload, hq, hret, hres, hfs⟩ := hr
  have hconf := LoadFile.unique h.load hload
  obtain ⟨q', hq', hfiles⟩ := h.parse buf hconf
  cases Leaves.unique hq hq'
  rw [if_pos hret, hres] at hfiles
  exact ⟨buf, fs, hconf, hfiles, hfs, sectionList_of_meaning hm hfs⟩

theorem Answers.refused (h : Answers malloc text brk conf files)
    (hg : Grants malloc (encode (recordsOf false text)).length)
    (hm : ∀ confs, meaning text ≠ .read confs) : conf = none ∨ ∃ buf, conf = some buf ∧ files = none := by
  have hr := reads_meaning hg brk
  cases hc : meaning text with
  | noFile =>
    rw [hc] at hr
    exact Or.inl (LoadFile.unique h.load hr)
  | rejected =>
    rw [hc] at hr
    obtain ⟨buf, q, hload, hq, hret⟩ := hr
    have hconf := LoadFile.unique h.load hload
    obtain ⟨q', hq', hfiles⟩ := h.parse buf hconf
    cases Leaves.unique hq hq'
    rw [if_neg hret] at hfiles
    exact Or.inr ⟨buf, hconf, hfiles⟩
  | read confs => exact absurd hc (hm confs)

end Answers

/-- Which library gets which section, in the order of the directory. -/
def assignment (confs : List Conf) (es : List Entry) : List (Entry × Conf) :=
  pairUp (fun e c => decide (SameName c.name e.chaa)) confs (es.filter Entry.candidate)

/-- The node stands for the library and has the section with these pairs. -/
def ServesConf (dirch : List Byte) (m : Mem) (a : Addr) (e : Entry) (c : Conf) : Prop :=
  ∃ buf f, m.shead = some buf ∧ f.2.conf buf = c ∧ Serves dirch m a e f

theorem assignment_files (buf : List Byte) (fs : List (Addr × Filedate)) (es : List Entry) :
    assignment (fs.map fun f => f.2.conf buf) es =
      (pairUp wants fs (es.filter Entry.candidate)).map fun p => (p.1, p.2.2.conf buf) :=
  pairUp_map (fun f : Addr × Filedate => f.2.conf buf) (es.filter Entry.candidate) fs

theorem assignment_perm {confs : List Conf} {es : List Entry} (h : Startable (confs.map Conf.name) es) :
    ((assignment confs es).map Prod.snd).Perm confs := by
  refine pairUp_perm _ confs (fun e _ => ?_) fun c hc => ?_
  · refine (List.pairwise_map.mp h.distinct).imp fun {c d} hne hce => ?_
    rw [decide_eq_true_iff] at hce
    rw [decide_eq_false_iff_not]
    exact fun hde => hne (hce.trans hde.symm)
  · obtain ⟨e, he, hcand, hsame⟩ := h.fits c.name (List.mem_map_of_mem hc)
    exact ⟨e, List.mem_filter.mpr ⟨he, hcand⟩, decide_eq_true hsame⟩

/-- From the sections that readFile has read to TimeInit or to END. -/
theorem launch_goes {dirch : List Byte} (buf : List Byte) {fs : List (Addr × Filedate)} {es : List Entry}
    (hs : SectionList fs) (hfit : ∀ e ∈ es, e.candidate = true → (e.chbb dirch).length < 64) :
    ∃ (res : Int) (m : Mem) (w : Option (List Entry)),
      Goes (bootBody dirch (some buf) (some fs)) (.main .loadFile, Mem.init, some es)
        (.main (if res < 0 then .END else .timeInit), m, w) ∧
      (res < 0 ↔ ¬ Startable (fs.map fun f => f.2.name) es) ∧
      (¬ res < 0 → Runs dirch m (pairUp wants fs (es.filter Entry.candidate)) ∧
        m.mainld = some 0 ∧ m.shead = some buf ∧ m.filehead = fs) := by
  have hload : Goes (bootBody dirch (some buf) (some fs)) (.main .loadFile, Mem.init, some es)
      (.main .readFile, { Mem.init with shead := some buf }, some es) := Goes.one rfl
  have hread : Goes (bootBody dirch (some buf) (some fs))
      (.main .readFile, { Mem.init with shead := some buf }, some es)
      (.main .opendir, configured buf fs, some es) := Goes.one rfl
  obtain ⟨res, m, hrun, hres, hruns⟩ := boot_outcome buf hs hfit
  obtain ⟨w, hgo⟩ := goes_of_boot dirch (some buf) (some fs) (some es) (configured buf fs) m res hrun
  exact ⟨res, m, w, (hload.trans hread).trans hgo, hres, hruns⟩

theorem launch_runs {dirch : List Byte} (buf : List Byte) {fs : List (Addr × Filedate)} {es : List Entry}
    (hs : SectionList fs) (hfit : ∀ e ∈ es, e.candidate = true → (e.chbb dirch).length < 64)
    {confs : List Conf} (hfs : fs.map (fun f => f.2.conf buf) = confs) (hst : Startable (confs.map Conf.name) es) :
    ∃ m w, Goes (bootBody dirch (some buf) (some fs)) (.main .loadFile, Mem.init, some es) (.main .timeInit, m, w) ∧
      ∃ mods, m.ListIs mods ∧
        List.Forall₂ (fun a p => ServesConf dirch m a p.1 p.2) mods (assignment confs es) := by
  obtain ⟨res, m, w, hgo, hres, hruns⟩ := launch_goes buf hs hfit
  have hnames : fs.map (fun f => f.2.name) = confs.map Conf.name := by
    rw [← hfs, List.map_map]
    rfl
  have hpos : ¬ res < 0 := by
    rw [hres, hnames]
    exact not_not_intro hst
  obtain ⟨⟨mods, hlist, hserve⟩, _, hshead, _⟩ := hruns hpos
  rw [if_neg hpos] at hgo
  refine ⟨m, w, hgo, mods, hlist, ?_⟩
  rw [← hfs, assignment_files, List.forall₂_map_right_iff]
  exact hserve.imp fun a p hp => ⟨buf, p.2, hshead, rfl, hp⟩

section Start
variable {dirch : List Byte} {conf : Option (List Byte)} {files : Option (List (Addr × Filedate))}
  {w v : Option (List Entry)} {pc : MainPc} {m : Mem}

theorem boot_quiet (h : Goes (bootBody dirch conf files) (.main .loadFile, Mem.init, w) (.main pc, m, v)) :
    (daemon dirch).Reach Quiet daemonStart ⟨[.main pc], m⟩ := by
  refine Machine.Reach.refl.world (fun g n u => ?_) h
  simp only [outside]
  split <;> rfl

/-- The start as a run of the daemon with its log lines. -/
theorem boot_logged (confwhere libwhere : Bool)
    (h : Goes (bootBody dirch conf files) (.main .loadFile, Mem.init, w) (.main pc, m, v)) :
    (loggedDaemon dirch libwhere).Reach (Kept Quiet) (loggedStart confwhere) ⟨[.code (.main pc)], m⟩ :=
  kept_lift quiet_keepsFile logAlive_start (loggedStart_lift confwhere) (boot_quiet h)

end Start

/-- From the text of the configuration and the names in the library directory, without signals and
with log lines that keep their file: when every library can be loaded and each section has a library
of its name to itself, the daemon comes to TimeInit with one module for each section, in the order of
the directory, each with its open library and the pairs of its section; in every other case it comes
to END. -/
theorem daemon_launch (dirch : List Byte) (confwhere libwhere : Bool) (malloc : Nat → Bool) (text : List Byte)
    (hg : Grants malloc (encode (recordsOf false text)).length) (brk : Addr) (conf : Option (List Byte))
    (files : Option (List (Addr × Filedate))) (hans : Answers malloc text brk conf files) (es : List Entry)
    (hfit : ∀ e ∈ es, e.candidate = true → (e.chbb dirch).length < 64) :
    (∀ confs, meaning text = .read confs → Startable (confs.map Conf.name) es →
      ∃ m w, Goes (bootBody dirch conf files) (.main .loadFile, Mem.init, some es) (.main .timeInit, m, w) ∧
        (loggedDaemon dirch libwhere).Reach (Kept Quiet) (loggedStart confwhere) ⟨[.code (.main .timeInit)], m⟩ ∧
        ((assignment confs es).map Prod.snd).Perm confs ∧
        ∃ mods, m.ListIs mods ∧
          List.Forall₂ (fun a p => ServesConf dirch m a p.1 p.2) mods (assignment confs es)) ∧
    ((∀ confs, meaning text = .read confs → ¬ Startable (confs.map Conf.name) es) →
      ∃ m w, Goes (bootBody dirch conf files) (.main .loadFile, Mem.init, some es) (.main .END, m, w) ∧
        (loggedDaemon dirch libwhere).Reach (Kept Quiet) (loggedStart confwhere) ⟨[.code (.main .END)], m⟩) := by
  have hend : ∀ {m w}, Goes (bootBody dirch conf files) (.main .loadFile, Mem.init, some es) (.main .END, m, w) →
      ∃ m w, Goes (bootBody dirch conf files) (.main .loadFile, Mem.init, some es) (.main .END, m, w) ∧
        (loggedDaemon dirch libwhere).Reach (Kept Quiet) (loggedStart confwhere) ⟨[.code (.main .END)], m⟩ :=
    fun hgo => ⟨_, _, hgo, boot_logged confwhere libwhere hgo⟩
  constructor
  · intro confs hm hst
    obtain ⟨buf, fs, hconf, hfiles, hfs, hs⟩ := hans.read hg hm
    subst hconf
    subst hfiles
    obtain ⟨m, w, hgo, mods, hlist, hserve⟩ := launch_runs buf hs hfit hfs hst
    exact ⟨m, w, hgo, boot_logged confwhere libwhere hgo, assignment_perm hst, mods, hlist, hserve⟩
  · intro hno
    by_cases hread : ∃ confs, meaning text = .read confs
    · obtain ⟨confs, hm⟩ := hread
      obtain ⟨buf, fs, hconf, hfiles, hfs, hs⟩ := hans.read hg hm
      subst hconf
      subst hfiles
      obtain ⟨res, m, w, hgo, hres, _⟩ := launch_goes buf hs hfit
      have hnames : fs.map (fun f => f.2.name) = confs.map Conf.name := by
        rw [← hfs, List.map_map]
        rfl
      rw [if_pos (hres.mpr (hnames ▸ hno confs hm))] at hgo
      exact hend hgo
    · have hread : ∀ confs, meaning text ≠ .read confs := fun confs hm => hread ⟨confs, hm⟩
      cases hans.refused hg hread with
      | inl hconf =>
        subst hconf
        exact hend (Goes.one rfl)
      | inr hconf =>
        obtain ⟨buf, hconf, hfiles⟩ := hconf
        subst hconf
        subst hfiles
        have hload : Goes (bootBody dirch (some buf) none) (.main .loadFile, Mem.init, some es)
            (.main .readFile, { Mem.init with shead := some buf }, some es) := Goes.one rfl
        have hread : Goes (bootBody dirch (some buf) none)
            (.main .readFile, { Mem.init with shead := some buf }, some es)
            (.main .END, { Mem.init with shead := some buf, filehead := [] }, some es) := Goes.one rfl
        exact hend (hload.trans hread)

/-- Two sections with comments, blank lines and blanks around the text. The name of the second one
has 34 bytes. -/
def notedText : List Byte :=
  [47, 47, 32, 99, 10, 10, 32, 97, 32, 10, 32, 107, 58, 118, 32, 10, 32, 10, 10] ++ List.replicate 34 110 ++
    [10, 47, 47, 10, 107, 58, 119, 10]

def notedConfs : List Conf := [⟨[97], [([107], [118])]⟩, ⟨List.replicate 31 110, [([107], [119])]⟩]

def longLib : Entry where
  dName := [108, 105, 98] ++ List.replicate 31 110 ++ [46, 115, 111]
  nulFree := by decide
  lib := some fun _ => some 0
  malloc := true

def notedDir : List Entry :=
  [⟨[114, 101, 97, 100, 109, 101, 46, 115], by decide, none, true⟩, longLib, liba fun _ => some 0]

theorem noted_meaning : meaning notedText = .read notedConfs := by decide

theorem noted_grants : Grants smallBlocks (encode (recordsOf false notedText)).length :=
  grants_of_small smallBlocks_small (by decide)

theorem noted_answers : ∃ conf files, Answers smallBlocks notedText 0 conf files := by
  have hr := reads_meaning noted_grants 0
  rw [noted_meaning] at hr
  obtain ⟨buf, q, fs, hload, hq, hret, hres, _⟩ := hr
  refine ⟨some buf, some fs, hload, fun b hb => ⟨q, ?_, by rw [if_pos hret, hres]⟩⟩
  cases hb
  exact hq

theorem noted_startable : Startable (notedConfs.map Conf.name) notedDir := by
  refine ⟨by decide, by decide, ?_⟩
  intro s hs
  simp only [notedConfs, List.map_cons, List.map_nil, List.mem_cons, List.not_mem_nil, or_false] at hs
  obtain rfl | rfl := hs
  · exact ⟨liba fun _ => some 0, by simp [notedDir], by decide, by decide⟩
  · exact ⟨longLib, by simp [notedDir], by decide, by decide⟩

theorem noted_fits : ∀ e ∈ notedDir, e.candidate = true → (e.chbb [46]).length < 64 := by
  intro e he _
  simp only [notedDir, List.mem_cons, List.not_mem_nil, or_false] at he
  obtain rfl | rfl | rfl := he
  all_goals decide

theorem noted_assignment : assignment notedConfs notedDir =
    [(longLib, ⟨List.replicate 31 110, [([107], [119])]⟩), (liba fun _ => some 0, ⟨[97], [([107], [118])]⟩)] := rfl

theorem daemon_launch_noted : ∃ conf files m w,
    Goes (bootBody [46] conf files) (.main .loadFile, Mem.init, some notedDir) (.main .timeInit, m, w) ∧
    ∃ a b, m.ListIs [a, b] ∧ ServesConf [46] m a longLib ⟨List.replicate 31 110, [([107], [119])]⟩ ∧
      ServesConf [46] m b (liba fun _ => some 0) ⟨[97], [([107], [118])]⟩ := by
  obtain ⟨conf, files, hans⟩ := noted_answers
  obtain ⟨m, w, hgo, _, _, mods, hlist, hserve⟩ := (daemon_launch [46] true true smallBlocks notedText noted_grants 0
    conf files hans _ noted_fits).1 notedConfs noted_meaning noted_startable
  rw [noted_assignment] at hserve
  cases hserve with
  | cons ha hrest =>
    cases hrest with
    | cons hb hnil =>
      cases hnil
      exact ⟨conf, files, m, w, hgo, _, _, hlist, ha, hb⟩

end TimeTask
