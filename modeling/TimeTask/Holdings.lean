import TimeTask.Launch
import TimeTask.LogLines
import TimeTask.NodeSim
import TimeTask.Release
import TimeTask.Lib.Ownership

/-! Who holds the nodes, the libraries and the logs, statement by statement of main, whenever the
timer interrupts it; and so what the stop signal finds. -/
namespace TimeTask
open Lib

/-- What main has in hand: a node that is not on the list, a library that no node stands for yet,
and the node whose library or whose log is released already. -/
structure Hands where
  node : Option Addr
  lib : Option Addr
  closed : Option Addr
  logged : Option Addr

/-- The hand of main in freeCycdata, with the statements `ss` to come. -/
def cleanHands (a : Addr) (ss : List Cleanup) : Hands :=
  ⟨if .free ∈ ss then some a else none, none, if .free ∈ ss ∧ .dlclose ∉ ss then some a else none,
    if .free ∈ ss ∧ .logDel ∉ ss then some a else none⟩

def MainPc.hands : MainPc → Hands
  | .dlsym i _ _ => ⟨none, some i.dirhandletem, none, none⟩
  | .malloc i _ _ => ⟨none, some i.dirhandletem, none, none⟩
  | .linkHead tem i _ => ⟨some tem, some i.dirhandletem, none, none⟩
  | .linkTail _ i _ => ⟨none, some i.dirhandletem, none, none⟩
  | .fill _ i fs _ => ⟨none, if .fdlib ∈ fs then some i.dirhandletem else none, none, none⟩
  | .cleanup a ss _ => cleanHands a ss
  | _ => ⟨none, none, none, none⟩

/-- The owners of the libraries: main for the one in its hand, and the nodes. -/
def Mem.ownsLib (m : Mem) (h : Hands) : Option Addr → Addr → Prop
  | none, x => h.lib = some x
  | some a, x => h.closed ≠ some a ∧ ∃ c, m.node a = some c ∧ c.libdata.fdlib = some x

/-- The owners of the logs other than the main log. -/
def Mem.ownsLog (m : Mem) (h : Hands) (a x : Addr) : Prop :=
  h.logged ≠ some a ∧ ∃ c, m.node a = some c ∧ ownLog m c = some x

/-- The list is intact, and a node is on it or in the hand of main. -/
def Mem.Linked (m : Mem) (tem : Option Addr) : Prop :=
  ∃ l, m.ListIs l ∧ (∀ a, (m.nxt a).isSome ↔ a ∈ l ∨ tem = some a) ∧ ∀ a ∈ l, tem ≠ some a

/-- Everything that was acquired and not released has one owner. -/
structure Stock (m : Mem) (h : Hands) : Prop where
  list : m.Linked h.node
  libs : Owned (m.ownsLib h) fun x => (m.libs.cell x).isSome
  logs : Owned (m.ownsLog h) fun x => (m.logs.cell x).isSome
  kept : ∀ x, (m.libs.cell x).isSome → ∃ o, m.ownsLib h o x
  files : (freeFiledate m.filehead).Nodup

/-- cycheadnext is the end of the list. -/
def Mem.TailOk (m : Mem) : Prop := ∀ l, m.ListIs l → l ≠ [] → m.cycheadnext = l.getLast?

/-- Some node other than `x` has a section. -/
def Mem.Kept (m : Mem) (x : Option Addr) : Prop := ∃ b c, x ≠ some b ∧ m.node b = some c ∧ c.fdate ≠ none

/-- What main relies on where it stands. -/
def Relies (m : Mem) : MainPc → Prop
  | .linkHead tem _ _ => m.TailOk ∧ ∃ c, m.node tem = some c ∧ c.next = none ∧ c.libdata.fdlib = none
  | .linkTail tem _ _ => (∀ l, m.ListIs l → l.getLast? = some tem) ∧
      ∃ c, m.node tem = some c ∧ c.libdata.fdlib = none
  | .fill tem _ fs _ => m.TailOk ∧ (fs = fields ∨ .fdlib ∉ fs) ∧
      ∃ c, m.node tem = some c ∧ (.fdlib ∈ fs → c.libdata.fdlib = none)
  | .bind _ fs => fs ≠ [] ∨ m.Kept none
  | .setFdate a _ _ _ => ∃ c, m.node a = some c
  | .setLd _ _ _ => m.Kept none
  | .sweep _ => m.Kept none
  | .unlink a _ => m.Kept none ∧ ∃ c, m.node a = some c ∧ c.fdate = none
  | .cleanup a ss _ => m.Kept (some a) ∧ ss <:+ freeCleanup
  | .timeInit => m.Kept none
  | .initAt _ => m.Kept none
  | .method _ _ => m.Kept none
  | .wait _ _ _ => m.Kept none
  | .pause => m.Kept none
  | .toSet => True
  | _ => m.TailOk

/-- main has given up. -/
def MainPc.over : MainPc → Bool
  | .END => true
  | .done => true
  | _ => false

def Accounted (m : Mem) (pc : MainPc) : Prop := pc.over = false → Stock m pc.hands ∧ Relies m pc

/-- The elementary things that a timer handler, a module method or a log line does to the memory. -/
inductive Work : Mem → Mem → Prop
  | emit (m : Mem) (es : List Event) : Work m (m.emit es)
  | signals (m : Mem) (k : Nat) : Work m { m with signals := k }
  | tidata (m : Mem) (a : Addr) (g : Onedate → Onedate) :
      Work m (m.update a fun c => { c with tidata := g c.tidata })
  | openLog (m : Mem) (a : Addr) :
      Work m { m.update a fun c => { c with ld := some m.logs.brk } with logs := m.logs.alloc () }
  | lose (m : Mem) (x : Addr) (hx : m.mainld = some x) : Work m ({ m with logs := m.logs.free x }.emit [.logDel x])

abbrev Works : Mem → Mem → Prop := Relation.ReflTransGen Work

theorem works_methodRet (who : Nat) (a : Addr) (k : Method) (ans : Ans) (m : Mem) :
    Works m (m.methodRet who a k ans) := by
  have h1 : Works m (m.emit [.ret who a k ans.ret]) := .single (.emit m _)
  have hlog : ∀ n, Works m n → Works m (if ans.openLog then
      { n.update a fun c => { c with ld := some n.logs.brk } with logs := n.logs.alloc () } else n) := by
    intro n hn
    cases ans.openLog with
    | false => exact hn
    | true => exact hn.tail (.openLog n a)
  simp only [Mem.methodRet]
  cases ans.tidata with
  | none => exact hlog _ h1
  | some t => exact hlog _ (h1.tail (.tidata _ a fun _ => t))

theorem works_touch {who : Nat} {a : Addr} {m : Mem} {k : Cycdata → Mem → Ctl Frame × Mem}
    (hk : ∀ c, Works (m.emit [.access who a]) (k c (m.emit [.access who a])).2) :
    Works m (touch who a m k).2 := by
  have h1 : Works m (m.emit [.access who a]) := .single (.emit m _)
  simp only [touch]
  cases (m.emit [.access who a]).node a with
  | none => exact h1
  | some c => exact h1.trans (hk c)

theorem tickStep_works (who : Nat) (pc : TickPc) (ans : Ans) (m : Mem) :
    Works m (tickStep who pc ans m).2 := by
  cases pc with
  | enter =>
    rw [tickStep_enter]
  | period a => exact works_touch fun c => by split_ifs <;> exact .refl
  | bump a => exact works_touch fun c => .single (.tidata _ a fun t =>
      { t with value := { t.value with len := toInt (t.value.len + 1) } })
  | compare a => exact works_touch fun c => by split_ifs <;> exact .refl
  | reset a => exact works_touch fun c => .single (.tidata _ a fun t =>
      { t with value := { t.value with len := 0 } })
  | method a ks =>
    cases ks with
    | nil => exact .refl
    | cons k ks =>
      refine works_touch fun c => ?_
      split_ifs
      · exact .refl
      · exact .single (.emit _ _)
  | wait a k ks =>
    simp only [tickStep]
    split_ifs <;> exact works_methodRet who a k ans m
  | next a =>
    refine works_touch fun c => ?_
    cases c.next <;> exact .refl

/-- The part of a node that no handler changes. -/
def Cycdata.fixed (c : Cycdata) : Cycdata := { c with tidata := Cycdata.zero.tidata, ld := none }

/-- The two memories differ in logs, clocks and the past only. -/
structure Steady (m n : Mem) : Prop where
  node : ∀ b, (n.node b).map Cycdata.fixed = (m.node b).map Cycdata.fixed
  head : n.cychead = m.cychead
  tail : n.cycheadnext = m.cycheadnext
  libs : n.libs = m.libs
  mainld : n.mainld = m.mainld
  filehead : n.filehead = m.filehead

theorem Steady.update (m : Mem) (a : Addr) {f : Cycdata → Cycdata} (hf : ∀ c, (f c).fixed = c.fixed) :
    Steady m (m.update a f) := by
  refine ⟨fun b => ?_, rfl, rfl, rfl, rfl, rfl⟩
  by_cases hb : b = a
  · subst hb
    rw [Mem.node_update_self, Option.map_map]
    exact congrArg (fun g => (m.node b).map g) (funext hf)
  · rw [Mem.node_update_ne m f hb]

theorem Work.steady {m n : Mem} (h : Work m n) : Steady m n := by
  cases h with
  | emit es => exact ⟨fun _ => rfl, rfl, rfl, rfl, rfl, rfl⟩
  | signals k => exact ⟨fun _ => rfl, rfl, rfl, rfl, rfl, rfl⟩
  | tidata a g => exact Steady.update m a fun _ => rfl
  | openLog a =>
    have hs : Steady m (m.update a fun c => { c with ld := some m.logs.brk }) := Steady.update m a fun _ => rfl
    exact ⟨hs.node, rfl, rfl, rfl, rfl, rfl⟩
  | lose x hx => exact ⟨fun _ => rfl, rfl, rfl, rfl, rfl, rfl⟩

section Steady
variable {m n : Mem}

theorem Steady.cell (h : Steady m n) {b : Addr} {c : Cycdata} (hc : m.node b = some c) :
    ∃ d, n.node b = some d ∧ d.fixed = c.fixed := by
  have hb := h.node b
  rw [hc] at hb
  exact Option.map_eq_some_iff.mp hb

theorem Steady.back (h : Steady m n) {b : Addr} {d : Cycdata} (hd : n.node b = some d) :
    ∃ c, m.node b = some c ∧ c.fixed = d.fixed := by
  have hb := h.node b
  rw [hd] at hb
  exact Option.map_eq_some_iff.mp hb.symm

theorem fixed_next {c d : Cycdata} (h : d.fixed = c.fixed) : d.next = c.next := by
  have hn := congrArg Cycdata.next h
  exact hn

theorem fixed_lib {c d : Cycdata} (h : d.fixed = c.fixed) : d.libdata.fdlib = c.libdata.fdlib := by
  have hl := congrArg Cycdata.libdata h
  exact congrArg Libsodata.fdlib hl

theorem fixed_fdate {c d : Cycdata} (h : d.fixed = c.fixed) : d.fdate = c.fdate := by
  have hf := congrArg Cycdata.fdate h
  exact hf

theorem Steady.nxt (h : Steady m n) : n.nxt = m.nxt := by
  funext b
  have hn : ∀ p : Mem, p.nxt b = ((p.node b).map Cycdata.fixed).map Cycdata.next := by
    intro p
    rw [Option.map_map]
    rfl
  rw [hn, hn, h.node b]

theorem Steady.tailOk (h : Steady m n) (ht : m.TailOk) : n.TailOk := by
  intro l hl hne
  rw [Mem.ListIs, h.nxt, h.head] at hl
  rw [h.tail]
  exact ht l hl hne

theorem Steady.kept (h : Steady m n) {x : Option Addr} (hk : m.Kept x) : n.Kept x := by
  obtain ⟨b, c, hx, hc, hf⟩ := hk
  obtain ⟨d, hd, hdc⟩ := h.cell hc
  exact ⟨b, d, hx, hd, by rw [fixed_fdate hdc]; exact hf⟩

theorem Steady.linked (h : Steady m n) {tem : Option Addr} (hl : m.Linked tem) : n.Linked tem := by
  obtain ⟨l, hl, hall, hnot⟩ := hl
  refine ⟨l, ?_, by rw [h.nxt]; exact hall, hnot⟩
  rw [Mem.ListIs, h.nxt, h.head]
  exact hl

theorem Steady.ownsLib (h : Steady m n) {k : Hands} {o : Option Addr} {x : Addr} :
    n.ownsLib k o x ↔ m.ownsLib k o x := by
  cases o with
  | none => exact Iff.rfl
  | some a =>
    refine and_congr_right fun _ => ⟨fun hd => ?_, fun hc => ?_⟩
    · obtain ⟨d, hd, hx⟩ := hd
      obtain ⟨c, hc, hcd⟩ := h.back hd
      exact ⟨c, hc, (fixed_lib hcd).trans hx⟩
    · obtain ⟨c, hc, hx⟩ := hc
      obtain ⟨d, hd, hdc⟩ := h.cell hc
      exact ⟨d, hd, (fixed_lib hdc).trans hx⟩

theorem Steady.relies (h : Steady m n) {pc : MainPc} (ha : Relies m pc) : Relies n pc := by
  have hnode : ∀ {a : Addr} {P Q : Cycdata → Prop}, (∀ c d, d.fixed = c.fixed → P c → Q d) →
      (∃ c, m.node a = some c ∧ P c) → ∃ d, n.node a = some d ∧ Q d := by
    intro a P Q hPQ hc
    obtain ⟨c, hc, hP⟩ := hc
    obtain ⟨d, hd, hdc⟩ := h.cell hc
    exact ⟨d, hd, hPQ c d hdc hP⟩
  cases pc with
  | linkHead tem i k =>
    refine ⟨h.tailOk ha.1, hnode (fun c d hdc hP => ?_) ha.2⟩
    exact ⟨(fixed_next hdc).trans hP.1, (fixed_lib hdc).trans hP.2⟩
  | linkTail tem i k =>
    refine ⟨fun l hl => ha.1 l ?_, hnode (fun c d hdc hP => (fixed_lib hdc).trans hP) ha.2⟩
    rw [Mem.ListIs, h.nxt, h.head] at hl
    exact hl
  | fill tem i fs k =>
    exact ⟨h.tailOk ha.1, ha.2.1, hnode (fun c d hdc hP hs => (fixed_lib hdc).trans (hP hs)) ha.2.2⟩
  | bind p fs => exact ha.imp id h.kept
  | setFdate a f p fs =>
    obtain ⟨c, hc⟩ := ha
    obtain ⟨d, hd, _⟩ := h.cell hc
    exact ⟨d, hd⟩
  | unlink a p => exact ⟨h.kept ha.1, hnode (fun c d hdc hP => (fixed_fdate hdc).trans hP) ha.2⟩
  | cleanup a ss p => exact ⟨h.kept ha.1, ha.2⟩
  | setLd a p fs => exact h.kept ha
  | sweep p => exact h.kept ha
  | timeInit => exact h.kept ha
  | initAt p => exact h.kept ha
  | method a ks => exact h.kept ha
  | wait a k ks => exact h.kept ha
  | pause => exact h.kept ha
  | toSet => trivial
  | loadFile => exact h.tailOk ha
  | readFile => exact h.tailOk ha
  | opendir => exact h.tailOk ha
  | readdir k => exact h.tailOk ha
  | dlopen e k => exact h.tailOk ha
  | dlsym i ok k => exact h.tailOk ha
  | malloc i ok k => exact h.tailOk ha
  | END => exact h.tailOk ha
  | done => exact h.tailOk ha

end Steady

/-- A log that is open stays so, and the owners keep theirs. -/
theorem Work.logs {m n : Mem} (h : Work m n) {k : Hands}
    (ho : Owned (m.ownsLog k) fun x => (m.logs.cell x).isSome) :
    Owned (n.ownsLog k) fun x => (n.logs.cell x).isSome := by
  cases h with
  | emit es => exact ho
  | signals j => exact ho
  | tidata a g =>
    refine ho.sub (fun b x hx => ?_) fun _ hx => hx
    obtain ⟨hl, d, hd, hx⟩ := hx
    by_cases hb : b = a
    · subst hb
      rw [Mem.node_update_self] at hd
      obtain ⟨c, hc, hcd⟩ := Option.map_eq_some_iff.mp hd
      exact ⟨hl, c, hc, by rw [← hcd] at hx; exact hx⟩
    · rw [Mem.node_update_ne m _ hb] at hd
      exact ⟨hl, d, hd, hx⟩
  | openLog a =>
    have hnew : ¬ (m.logs.cell m.logs.brk).isSome = true := by
      rw [m.logs.fresh m.logs.brk (le_refl _)]
      exact Bool.false_ne_true
    refine ho.take a hnew (fun b x hx => ?_) (fun x hx => ?_) ?_
    · obtain ⟨hl, d, hd, hx⟩ := hx
      by_cases hb : b = a
      · subst hb
        have hd : (m.update b fun c => { c with ld := some m.logs.brk }).node b = some d := hd
        rw [Mem.node_update_self] at hd
        obtain ⟨c, hc, hcd⟩ := Option.map_eq_some_iff.mp hd
        refine Or.inr ⟨rfl, ?_⟩
        rw [← hcd] at hx
        simp only [ownLog] at hx
        split_ifs at hx
        exact (Option.some.inj hx).symm
      · have hd : (m.update a fun c => { c with ld := some m.logs.brk }).node b = some d := hd
        rw [Mem.node_update_ne m _ hb] at hd
        exact Or.inl ⟨hl, d, hd, hx⟩
    · obtain ⟨u, hu⟩ := Option.isSome_iff_exists.mp hx
      exact Option.isSome_iff_exists.mpr ⟨u, m.logs.cell_alloc_old () hu⟩
    · exact Option.isSome_iff_exists.mpr ⟨(), m.logs.cell_alloc_self ()⟩
  | lose l hm =>
    -- the main log is no node's own
    refine ⟨fun a x hx => ?_, ho.apart⟩
    obtain ⟨c, _, hown⟩ := hx.2
    have hne : x ≠ l := fun he => ownLog_ne_mainld hown (he ▸ hm)
    rw [← ho.isOpen a x hx]
    exact congrArg Option.isSome (m.logs.cell_free_ne hne)

theorem Stock.steady {m n : Mem} {k : Hands} (s : Stock m k) (h : Steady m n)
    (hlogs : Owned (n.ownsLog k) fun x => (n.logs.cell x).isSome) : Stock n k := by
  refine ⟨h.linked s.list, ?_, hlogs, fun x hx => ?_, by rw [h.filehead]; exact s.files⟩
  · rw [h.libs]
    exact s.libs.sub (fun o x hx => h.ownsLib.mp hx) fun _ hx => hx
  · rw [h.libs] at hx
    obtain ⟨o, ho⟩ := s.kept x hx
    exact ⟨o, h.ownsLib.mpr ho⟩

/-- Whatever a handler does, the assertion of main stays. -/
theorem Accounted.work {m n : Mem} {pc : MainPc} (h : Accounted m pc) (hw : Work m n) : Accounted n pc := by
  intro ho
  obtain ⟨hs, ha⟩ := h ho
  exact ⟨hs.steady hw.steady (hw.logs hs.logs), hw.steady.relies ha⟩

theorem Accounted.works {m n : Mem} {pc : MainPc} (h : Accounted m pc) (hw : Works m n) : Accounted n pc := by
  induction hw with
  | refl => exact h
  | tail _ hw ih => exact ih.work hw

abbrev Hands.free : Hands := ⟨none, none, none, none⟩

theorem Mem.Linked.congr {m n : Mem} {tem : Option Addr} (h : m.Linked tem) (hn : n.nxt = m.nxt)
    (hh : n.cychead = m.cychead) : n.Linked tem := by
  obtain ⟨l, hl, hall, hnot⟩ := h
  refine ⟨l, ?_, by rw [hn]; exact hall, hnot⟩
  rw [Mem.ListIs, hn, hh]
  exact hl

theorem Stock.update {m : Mem} {k : Hands} (s : Stock m k) (a : Addr) {f : Cycdata → Cycdata}
    {tem : Option Addr} (hlist : (m.update a f).Linked tem)
    (hlib : k.closed ≠ some a → ∀ c, (f c).libdata.fdlib = c.libdata.fdlib)
    (hlog : k.logged ≠ some a → ∀ c, m.node a = some c → ∀ x, ownLog m (f c) = some x → ownLog m c = some x) :
    Stock (m.update a f) { k with node := tem } := by
  have hlibs : ∀ o x, (m.update a f).ownsLib k o x ↔ m.ownsLib k o x := by
    intro o x
    cases o with
    | none => exact Iff.rfl
    | some b =>
      refine and_congr_right fun hcl => ?_
      by_cases hb : b = a
      · subst hb
        rw [Mem.node_update_self]
        constructor
        · rintro ⟨d, hd, hx⟩
          obtain ⟨c, hc, hcd⟩ := Option.map_eq_some_iff.mp hd
          exact ⟨c, hc, by rw [← hlib hcl c, hcd, hx]⟩
        · rintro ⟨c, hc, hx⟩
          exact ⟨f c, by rw [hc, Option.map_some], by rw [hlib hcl c, hx]⟩
      · rw [Mem.node_update_ne m f hb]
  refine ⟨hlist, s.libs.sub (fun o x hx => (hlibs o x).mp hx) fun _ hx => hx,
    s.logs.sub (fun o x hx => ?_) fun _ hx => hx, fun x hx => ?_, s.files⟩
  · obtain ⟨hl, d, hd, hx⟩ := hx
    by_cases hb : o = a
    · subst hb
      rw [Mem.node_update_self] at hd
      obtain ⟨c, hc, hcd⟩ := Option.map_eq_some_iff.mp hd
      exact ⟨hl, c, hc, hlog hl c hc x (by rw [hcd]; exact hx)⟩
    · rw [Mem.node_update_ne m f hb] at hd
      exact ⟨hl, d, hd, hx⟩
  · obtain ⟨o, ho⟩ := s.kept x hx
    exact ⟨o, (hlibs o x).mpr ho⟩

theorem Stock.dlopen {m : Mem} (s : Stock m .free) :
    Stock (dlopen m).2 ⟨none, some m.libs.brk, none, none⟩ := by
  have hnew : ¬ (m.libs.cell m.libs.brk).isSome = true := by
    rw [m.libs.fresh m.libs.brk (le_refl _)]
    exact Bool.false_ne_true
  refine ⟨s.list, s.libs.take none hnew (fun o x hx => ?_) (fun x hx => ?_) ?_, s.logs, fun x hx => ?_,
    s.files⟩
  · cases o with
    | none => exact Or.inr ⟨rfl, (Option.some.inj hx).symm⟩
    | some a => exact Or.inl hx
  · obtain ⟨u, hu⟩ := Option.isSome_iff_exists.mp hx
    exact Option.isSome_iff_exists.mpr ⟨u, m.libs.cell_alloc_old () hu⟩
  · exact Option.isSome_iff_exists.mpr ⟨(), m.libs.cell_alloc_self ()⟩
  · by_cases hb : x = m.libs.brk
    · exact ⟨none, congrArg some hb.symm⟩
    · have hx : ((m.libs.alloc ()).cell x).isSome = true := hx
      rw [m.libs.cell_alloc_ne () hb] at hx
      obtain ⟨o, ho⟩ := s.kept x hx
      cases o with
      | none => cases ho
      | some a => exact ⟨some a, ho⟩

theorem Stock.malloc {m : Mem} {x : Addr} (s : Stock m ⟨none, some x, none, none⟩) :
    Stock (cycmakeMalloc none m).2 ⟨some m.nodes.brk, some x, none, none⟩ ∧
      ∃ l, m.ListIs l ∧ (cycmakeMalloc none m).2.ListIs l := by
  let n := (cycmakeMalloc none m).2
  have hself : n.node m.nodes.brk = some Cycdata.zero := m.nodes.cell_alloc_self _
  have hold : ∀ a, a ≠ m.nodes.brk → n.node a = m.node a := fun a ha => m.nodes.cell_alloc_ne _ ha
  have hfresh : m.node m.nodes.brk = none := m.nodes.fresh _ (le_refl _)
  have hnode : ∀ {a : Addr} {c : Cycdata}, n.node a = some c → c ≠ Cycdata.zero → m.node a = some c := by
    intro a c hc hz
    by_cases ha : a = m.nodes.brk
    · subst ha
      rw [hself] at hc
      exact absurd (Option.some.inj hc).symm hz
    · rw [← hold a ha]
      exact hc
  obtain ⟨l, hl, hall, _⟩ := s.list
  have hlive : ∀ a ∈ l, a ≠ m.nodes.brk := by
    intro a ha he
    obtain ⟨c, hc⟩ := hl.node ha
    rw [he, hfresh] at hc
    cases hc
  have hnxt : ∀ a, a ≠ m.nodes.brk → n.nxt a = m.nxt a := by
    intro a ha
    rw [Mem.nxt_eq, Mem.nxt_eq, hold a ha]
  have hl' : n.ListIs l := chain_congr (fun a ha => hnxt a (hlive a ha)) hl
  refine ⟨⟨⟨l, hl', fun a => ?_, fun a ha he => ?_⟩, s.libs.sub (fun o y hy => ?_) fun _ hy => hy,
    s.logs.sub (fun o y hy => ?_) fun _ hy => hy, fun y hy => ?_, s.files⟩, l, hl, hl'⟩
  · by_cases ha : a = m.nodes.brk
    · subst ha
      exact iff_of_true (by rw [Mem.nxt_of_node hself]; rfl) (Or.inr rfl)
    · rw [show (cycmakeMalloc none m).2.nxt a = m.nxt a from hnxt a ha, hall a]
      refine or_congr_right (iff_of_false (by simp) fun he => ha (Option.some.inj he).symm)
  · exact hlive a ha (Option.some.inj he).symm
  · cases o with
    | none => exact hy
    | some a =>
      obtain ⟨hcl, c, hc, hy⟩ := hy
      refine ⟨hcl, c, hnode hc fun hz => ?_, hy⟩
      rw [hz] at hy
      cases hy
  · obtain ⟨hcl, c, hc, hy⟩ := hy
    refine ⟨hcl, c, hnode hc fun hz => ?_, hy⟩
    rw [hz] at hy
    simp only [ownLog] at hy
    split_ifs at hy
    cases hy
  · obtain ⟨o, ho⟩ := s.kept y hy
    cases o with
    | none => exact ⟨none, ho⟩
    | some a =>
      obtain ⟨hcl, c, hc, hy⟩ := ho
      have ha : a ≠ m.nodes.brk := fun he => by
        rw [he, hfresh] at hc
        cases hc
      exact ⟨some a, hcl, c, (hold a ha).trans hc, hy⟩

theorem Stock.linkHead {m n : Mem} {tem x : Addr} {c : Cycdata} (s : Stock m ⟨some tem, some x, none, none⟩)
    (ht : m.TailOk) (hc : m.node tem = some c) (hnext : c.next = none) (hl : linkHead tem m = some n) :
    Stock n ⟨none, some x, none, none⟩ ∧ (∀ l, n.ListIs l → l.getLast? = some tem) ∧
      ∃ d, n.node tem = some d ∧ d.libdata = c.libdata := by
  obtain ⟨l, hlist, hall, hnot⟩ := s.list
  have htem : m.nxt tem = some none := by rw [Mem.nxt_of_node hc, hnext]
  simp only [TimeTask.linkHead] at hl
  cases hh : m.cychead with
  | none =>
    rw [hh] at hl
    cases hl
    rw [Mem.ListIs, hh] at hlist
    have hnil := chain_none hlist
    subst hnil
    have hone : ({ m with cychead := some tem } : Mem).ListIs [tem] := ⟨rfl, none, htem, rfl⟩
    refine ⟨⟨⟨[tem], hone, fun a => ?_, fun _ _ => by simp⟩, s.libs, s.logs, s.kept, s.files⟩, ?_, c, hc, rfl⟩
    · refine (hall a).trans ?_
      simp [eq_comm]
    · intro l' hl'
      rw [chain_unique hl' hone]
      rfl
  | some y =>
    rw [hh] at hl
    have hne : l ≠ [] := by
      intro hn
      rw [hn, Mem.ListIs, hh] at hlist
      cases hlist
    have htail := ht l hlist hne
    obtain ⟨k, t, hk⟩ : ∃ k t, l = k ++ [t] := ⟨_, _, (List.dropLast_append_getLast hne).symm⟩
    subst hk
    rw [List.getLast?_concat] at htail
    simp only [htail] at hl
    cases hd : m.node t with
    | none => simp [hd] at hl
    | some d =>
      simp only [hd, Option.some.injEq] at hl
      subst hl
      have hneq : tem ≠ t := fun he => hnot t (by simp) (congrArg some he)
      let f : Cycdata → Cycdata := fun c => { c with next := some tem }
      have hself : (m.update t f).nxt t = some (some tem) := by
        rw [Mem.nxt_eq, Mem.node_update_self, hd]
        rfl
      have hother : ∀ a, a ≠ t → (m.update t f).nxt a = m.nxt a := by
        intro a ha
        rw [Mem.nxt_eq, Mem.node_update_ne m f ha, Mem.nxt_eq]
      have hnd := chain_nodup hlist
      have hnew : (m.update t f).ListIs (k ++ [t] ++ [tem]) := by
        refine chain_snoc hlist (fun a ha => hother a fun he => ?_) hself ((hother tem hneq).trans htem)
        rw [he] at ha
        exact (List.disjoint_of_nodup_append hnd) ha (by simp)
      have hlinked : (m.update t f).Linked none := by
        refine ⟨_, hnew, fun a => ?_, fun _ _ => by simp⟩
        have hsome : ((m.update t f).nxt a).isSome = (m.nxt a).isSome := by
          by_cases ha : a = t
          · rw [ha, hself, Mem.nxt_of_node hd]
            rfl
          · rw [hother a ha]
        rw [hsome, hall a]
        simp [eq_comm, or_assoc]
      have hup := s.update t hlinked (fun _ _ => rfl) (fun _ c _ x hx => hx)
      refine ⟨hup, ?_, c, ?_, rfl⟩
      · intro l' hl'
        rw [chain_unique hl' hnew]
        exact List.getLast?_concat
      · rw [Mem.node_update_ne m f hneq]
        exact hc

theorem Stock.store {m : Mem} {tem : Addr} {i : LibInfo} {c : Cycdata}
    (s : Stock m ⟨none, some i.dirhandletem, none, none⟩) (hc : m.node tem = some c)
    (hlib : c.libdata.fdlib = none) : Stock (m.update tem fun c => Field.store i c .fdlib) .free := by
  let n := m.update tem fun c => Field.store i c .fdlib
  have hself : n.node tem = some (Field.store i c .fdlib) := by
    rw [Mem.node_update_self, hc]
    rfl
  have hown : ∀ o x, n.ownsLib .free o x →
      (o ≠ none ∧ o ≠ some tem ∧ m.ownsLib ⟨none, some i.dirhandletem, none, none⟩ o x) ∨
        (o = some tem ∧ m.ownsLib ⟨none, some i.dirhandletem, none, none⟩ none x) := by
    intro o x hx
    cases o with
    | none => cases hx
    | some a =>
      obtain ⟨hcl, d, hd, hx⟩ := hx
      by_cases ha : a = tem
      · subst ha
        rw [hself] at hd
        cases hd
        exact Or.inr ⟨rfl, hx⟩
      · rw [Mem.node_update_ne m _ ha] at hd
        exact Or.inl ⟨by simp, fun he => ha (Option.some.inj he), hcl, d, hd, hx⟩
  refine ⟨s.list.congr (Mem.nxt_update m tem fun _ => rfl) rfl, s.libs.pass hown, s.logs.sub (fun o x hx => ?_) fun _ hx => hx,
    fun x hx => ?_, s.files⟩
  · obtain ⟨hl, d, hd, hx⟩ := hx
    by_cases ha : o = tem
    · subst ha
      rw [hself] at hd
      cases hd
      exact ⟨hl, c, hc, hx⟩
    · rw [Mem.node_update_ne m _ ha] at hd
      exact ⟨hl, d, hd, hx⟩
  · obtain ⟨o, ho⟩ := s.kept x hx
    cases o with
    | none => exact ⟨some tem, by simp, _, hself, ho⟩
    | some a =>
      obtain ⟨hcl, d, hd, hx⟩ := ho
      have ha : a ≠ tem := fun he => by
        rw [he, hc] at hd
        cases hd
        rw [hlib] at hx
        cases hx
      exact ⟨some a, hcl, d, (Mem.node_update_ne m _ ha).trans hd, hx⟩

theorem Stock.relink {m n : Mem} {k : Hands} (s : Stock m k) {tem : Option Addr} (hlist : n.Linked tem)
    (hb : n.body = m.body) (he : n = { m with nodes := n.nodes, cychead := n.cychead }) :
    Stock n { k with node := tem } := by
  have hgo : ∀ {p q : Mem}, q.body = p.body → ∀ {a : Addr} {c : Cycdata}, p.node a = some c →
      ∃ r, q.node a = some { c with next := r } := fun hpq _ _ hc => body_eq_some (congrFun hpq _) hc
  have hmain : n.mainld = m.mainld := by rw [he]
  have hlibs : n.libs = m.libs := by rw [he]
  have hlogs : n.logs = m.logs := by rw [he]
  have hfiles : n.filehead = m.filehead := by rw [he]
  refine ⟨hlist, ?_, ?_, fun x hx => ?_, hfiles ▸ s.files⟩
  · rw [hlibs]
    refine s.libs.sub (fun o x hx => ?_) fun _ hx => hx
    cases o with
    | none => exact hx
    | some a =>
      obtain ⟨hcl, c, hc, hx⟩ := hx
      obtain ⟨r, hd⟩ := hgo hb.symm hc
      exact ⟨hcl, _, hd, hx⟩
  · rw [hlogs]
    refine s.logs.sub (fun a x hx => ?_) fun _ hx => hx
    obtain ⟨hl, c, hc, hx⟩ := hx
    obtain ⟨r, hd⟩ := hgo hb.symm hc
    exact ⟨hl, _, hd, (ownLog_link n m c r hmain.symm).trans hx⟩
  · rw [hlibs] at hx
    obtain ⟨o, ho⟩ := s.kept x hx
    cases o with
    | none => exact ⟨none, ho⟩
    | some a =>
      obtain ⟨hcl, c, hc, hx⟩ := ho
      obtain ⟨r, hd⟩ := hgo hb hc
      exact ⟨some a, hcl, _, hd, hx⟩

theorem live_body (m : Mem) (a : Addr) : (m.nxt a).isSome = (m.body a).isSome := by
  rw [Mem.nxt_eq, Mem.body, Option.isSome_map, Option.isSome_map]

theorem Stock.unlink {m n : Mem} {a : Addr} {BB : Option Addr} (s : Stock m .free)
    (hf : freeSearch m a m.nodes.brk m.cychead none = some (some BB)) (hu : unlinkCycdata a BB m = some n) :
    Stock n ⟨some a, none, none, none⟩ ∧ n.body = m.body := by
  obtain ⟨l, hl, hall, _⟩ := s.list
  by_cases ha : a ∈ l
  · obtain ⟨k, r, he⟩ := List.append_of_mem ha
    subst he
    have hnd := chain_nodup hl
    rw [List.nodup_middle, List.nodup_cons] at hnd
    have hk : a ∉ k := fun hk => hnd.1 (List.mem_append_left r hk)
    have hlen := hl.length_le
    rw [List.length_append, List.length_cons] at hlen
    rw [freeSearch_chain none hl hk (by omega), Option.or_none, Option.some.injEq, Option.some.injEq] at hf
    subst hf
    obtain ⟨n', hn', hlist, hbody, hsame, _⟩ := unlinkCycdata_chain hl
    rw [hu] at hn'
    cases hn'
    have hlinked : n.Linked (some a) := by
      refine ⟨_, hlist, fun b => ?_, fun b hb he => ?_⟩
      · rw [live_body, hbody, ← live_body, hall b]
        simp only [List.mem_append, List.mem_cons, Option.some.injEq, reduceCtorEq, or_false]
        constructor
        · rintro (h | h | h)
          · exact Or.inl (Or.inl h)
          · exact Or.inr h.symm
          · exact Or.inl (Or.inr h)
        · rintro ((h | h) | h)
          · exact Or.inl h
          · exact Or.inr (Or.inr h)
          · exact Or.inr (Or.inl h.symm)
      · rw [Option.some.injEq] at he
        exact hnd.1 (he ▸ hb)
    exact ⟨s.relink hlinked hbody hsame, hbody⟩
  · rw [freeSearch_absent hl ha hl.length_le] at hf
    cases hf

theorem Stock.logDel {m n : Mem} {a : Addr} (s : Stock m ⟨some a, none, none, none⟩)
    (he : Cleanup.exec a m .logDel = some n) : Stock n ⟨some a, none, none, some a⟩ := by
  have hdrop : ∀ b x, m.ownsLog ⟨some a, none, none, some a⟩ b x →
      m.ownsLog ⟨some a, none, none, none⟩ b x ∧ b ≠ a :=
    fun b x hx => ⟨⟨by simp, hx.2⟩, fun hb => hx.1 (congrArg some hb.symm)⟩
  simp only [Cleanup.exec] at he
  cases hc : m.node a with
  | none => simp [hc] at he
  | some c =>
    simp only [hc] at he
    split_ifs at he with hown
    · cases hl : c.ld with
      | none => exact absurd hl hown.1
      | some x =>
        simp only [hl, TimeTask.logDel] at he
        cases hcell : m.logs.cell x with
        | none => simp [hcell] at he
        | some u =>
          simp only [hcell, Option.some.injEq] at he
          subst he
          have h0 : m.ownsLog ⟨some a, none, none, none⟩ a x :=
            ⟨by simp, c, hc, by rw [ownLog, if_neg hown.2, hl]⟩
          refine ⟨s.list, s.libs, s.logs.close h0 hdrop fun y hy ho => ?_, s.kept, s.files⟩
          have hcy : (m.logs.free x).cell y = m.logs.cell y := m.logs.cell_free_ne hy
          exact (congrArg Option.isSome hcy).trans ho
    · cases he
      exact ⟨s.list, s.libs, s.logs.sub (fun o x hx => (hdrop o x hx).1) fun _ hx => hx, s.kept, s.files⟩

theorem Stock.dlclose {m n : Mem} {a : Addr} (s : Stock m ⟨some a, none, none, some a⟩)
    (he : Cleanup.exec a m .dlclose = some n) : Stock n ⟨some a, none, some a, some a⟩ := by
  have hdrop : ∀ o x, m.ownsLib ⟨some a, none, some a, some a⟩ o x →
      m.ownsLib ⟨some a, none, none, some a⟩ o x ∧ o ≠ some a := by
    intro o x hx
    cases o with
    | none => exact ⟨hx, by simp⟩
    | some b => exact ⟨⟨by simp, hx.2⟩, fun hb => hx.1 hb.symm⟩
  -- what is owned by another node stays owned
  have hrest : ∀ o x, m.ownsLib ⟨some a, none, none, some a⟩ o x → o ≠ some a →
      m.ownsLib ⟨some a, none, some a, some a⟩ o x := by
    intro o x hx ho
    cases o with
    | none => exact hx
    | some b => exact ⟨fun hb => ho hb.symm, hx.2⟩
  simp only [Cleanup.exec] at he
  cases hc : m.node a with
  | none => simp [hc] at he
  | some c =>
    simp only [hc] at he
    cases hl : c.libdata.fdlib with
    | none =>
      rw [hl] at he
      cases he
      refine ⟨s.list, s.libs.sub (fun o x hx => (hdrop o x hx).1) fun _ hx => hx, s.logs, fun x hx => ?_,
        s.files⟩
      obtain ⟨o, ho⟩ := s.kept x hx
      refine ⟨o, hrest o x ho fun hoa => ?_⟩
      subst hoa
      obtain ⟨_, d, hd, hx⟩ := ho
      rw [hc] at hd
      cases hd
      rw [hl] at hx
      cases hx
    | some h =>
      simp only [hl, TimeTask.dlclose] at he
      cases hcell : m.libs.cell h with
      | none => simp [hcell] at he
      | some u =>
        simp only [hcell, Option.some.injEq] at he
        subst he
        have h0 : m.ownsLib ⟨some a, none, none, some a⟩ (some a) h := ⟨by simp, c, hc, hl⟩
        refine ⟨s.list, s.libs.close h0 hdrop fun y hy ho => ?_, s.logs, fun x hx => ?_, s.files⟩
        · have hcy : (m.libs.free h).cell y = m.libs.cell y := m.libs.cell_free_ne hy
          exact (congrArg Option.isSome hcy).trans ho
        · have hx : ((m.libs.free h).cell x).isSome = true := hx
          have hne : x ≠ h := fun hxh => by
            rw [hxh, m.libs.cell_free_self] at hx
            cases hx
          rw [m.libs.cell_free_ne hne] at hx
          obtain ⟨o, ho⟩ := s.kept x hx
          refine ⟨o, hrest o x ho fun hoa => ?_⟩
          subst hoa
          obtain ⟨_, d, hd, hx'⟩ := ho
          rw [hc] at hd
          cases hd
          rw [hl] at hx'
          exact hne (Option.some.inj hx').symm

theorem Stock.free {m : Mem} {a : Addr} (s : Stock m ⟨some a, none, some a, some a⟩) :
    Stock ({ m with nodes := m.nodes.free a }.emit [.free a]) .free := by
  let n : Mem := { m with nodes := m.nodes.free a }.emit [.free a]
  have hself : n.node a = none := m.nodes.cell_free_self a
  have hold : ∀ b, b ≠ a → n.node b = m.node b := fun b hb => m.nodes.cell_free_ne hb
  have hback : ∀ {b : Addr} {c : Cycdata}, n.node b = some c → b ≠ a ∧ m.node b = some c := by
    intro b c hc
    have hb : b ≠ a := fun he => by
      rw [he, hself] at hc
      cases hc
    exact ⟨hb, (hold b hb).symm.trans hc⟩
  obtain ⟨l, hl, hall, hnot⟩ := s.list
  have hne : ∀ b ∈ l, b ≠ a := fun b hb he => hnot b hb (congrArg some he.symm)
  refine ⟨⟨l, chain_congr (fun b hb => ?_) hl, fun b => ?_, fun _ _ => by simp⟩,
    s.libs.sub (fun o x hx => ?_) fun _ hx => hx, s.logs.sub (fun o x hx => ?_) fun _ hx => hx, fun x hx => ?_,
    s.files⟩
  · rw [Mem.nxt_eq, Mem.nxt_eq]
    exact congrArg _ (hold b (hne b hb))
  · have hb := hall b
    by_cases hba : b = a
    · subst hba
      refine iff_of_false ?_ fun hm => hm.elim (fun hm => hne b hm rfl) fun he => by cases he
      rw [Mem.nxt_eq, hself]
      exact Bool.false_ne_true
    · rw [Mem.nxt_eq, hold b hba, ← Mem.nxt_eq, hb]
      exact or_congr_right (iff_of_false (fun he => hba (Option.some.inj he).symm) (by simp))
  · cases o with
    | none => cases hx
    | some b =>
      obtain ⟨_, c, hc, hx⟩ := hx
      obtain ⟨hb, hc⟩ := hback hc
      exact ⟨fun he => hb (Option.some.inj he).symm, c, hc, hx⟩
  · obtain ⟨_, c, hc, hx⟩ := hx
    obtain ⟨hb, hc⟩ := hback hc
    exact ⟨fun he => hb (Option.some.inj he).symm, c, hc, hx⟩
  · obtain ⟨o, ho⟩ := s.kept x hx
    cases o with
    | none => cases ho
    | some b =>
      obtain ⟨hcl, c, hc, hx⟩ := ho
      exact ⟨some b, by simp, c, (hold b fun he => hcl (congrArg some he.symm)).trans hc, hx⟩

theorem Stock.clean {m n : Mem} {a : Addr} {s : Cleanup} {ss : List Cleanup} (hs : s :: ss <:+ freeCleanup)
    (h : Stock m (cleanHands a (s :: ss))) (he : s.exec a m = some n) :
    Stock n (cleanHands a ss) := by
  have hcell : ∃ c, m.node a = some c := by
    cases hc : m.node a with
    | none => simp [Cleanup.exec, hc] at he
    | some c => exact ⟨c, rfl⟩
  obtain ⟨c, hc⟩ := hcell
  have hcases : (s = .fdate ∧ ss = [.logDel, .ld, .dlclose, .fdlib, .next, .free]) ∨
      (s = .logDel ∧ ss = [.ld, .dlclose, .fdlib, .next, .free]) ∨ (s = .ld ∧ ss = [.dlclose, .fdlib, .next, .free]) ∨
      (s = .dlclose ∧ ss = [.fdlib, .next, .free]) ∨ (s = .fdlib ∧ ss = [.next, .free]) ∨
      (s = .next ∧ ss = [.free]) ∨ (s = .free ∧ ss = []) := by
    simpa [freeCleanup, List.suffix_cons_iff] using hs
  obtain ⟨rfl, rfl⟩ | ⟨rfl, rfl⟩ | ⟨rfl, rfl⟩ | ⟨rfl, rfl⟩ | ⟨rfl, rfl⟩ | ⟨rfl, rfl⟩ | ⟨rfl, rfl⟩ := hcases
  · simp only [Cleanup.exec, hc, Option.some.injEq] at he
    subst he
    exact h.update a (h.list.congr (Mem.nxt_update m a fun _ => rfl) rfl) (fun _ _ => rfl)
      (fun _ _ _ _ hx => hx)
  · exact Stock.logDel h he
  · simp only [Cleanup.exec, hc, Option.some.injEq] at he
    subst he
    exact h.update a (h.list.congr (Mem.nxt_update m a fun _ => rfl) rfl) (fun _ _ => rfl)
      (fun hl => absurd rfl hl)
  · exact Stock.dlclose h he
  · simp only [Cleanup.exec, hc, Option.some.injEq] at he
    subst he
    exact h.update a (h.list.congr (Mem.nxt_update m a fun _ => rfl) rfl) (fun hl => absurd rfl hl)
      (fun hl => absurd rfl hl)
  · simp only [Cleanup.exec, hc, Option.some.injEq] at he
    subst he
    refine h.update a ?_ (fun hl => absurd rfl hl) (fun hl => absurd rfl hl)
    obtain ⟨l, hl, hall, hnot⟩ := h.list
    have hother : ∀ b, b ≠ a → (m.update a fun c => { c with next := none }).nxt b = m.nxt b := by
      intro b hb
      rw [Mem.nxt_eq, Mem.node_update_ne m _ hb, Mem.nxt_eq]
    refine ⟨l, chain_congr (fun b hb => hother b fun hba => hnot b hb (congrArg some hba.symm)) hl, fun b => ?_, hnot⟩
    refine Iff.trans ?_ (hall b)
    rw [Mem.nxt_eq, Mem.nxt_eq, Option.isSome_map, Option.isSome_map]
    by_cases hb : b = a
    · rw [hb, Mem.node_update_self, Option.isSome_map]
    · rw [Mem.node_update_ne m _ hb]
  · simp only [Cleanup.exec, hc, Option.some.injEq] at he
    subst he
    exact Stock.free h

theorem Mem.TailOk.congr {m n : Mem} (h : m.TailOk) (hn : n.nxt = m.nxt) (hh : n.cychead = m.cychead)
    (ht : n.cycheadnext = m.cycheadnext) : n.TailOk := by
  intro l hl hne
  rw [Mem.ListIs, hn, hh] at hl
  rw [ht]
  exact h l hl hne

theorem Mem.Kept.congr {m n : Mem} {x y : Option Addr} (h : m.Kept x)
    (hb : ∀ b c, x ≠ some b → m.node b = some c → c.fdate ≠ none →
      y ≠ some b ∧ ∃ d, n.node b = some d ∧ d.fdate = c.fdate) : n.Kept y := by
  obtain ⟨b, c, hx, hc, hf⟩ := h
  obtain ⟨hy, d, hd, hdf⟩ := hb b c hx hc hf
  exact ⟨b, d, hy, hd, hdf ▸ hf⟩

theorem update_cell (m : Mem) (a : Addr) (f : Cycdata → Cycdata) {b : Addr} {c : Cycdata} (hc : m.node b = some c) :
    ∃ d, (m.update a f).node b = some d ∧ (d = c ∨ d = f c) := by
  by_cases hb : b = a
  · subst hb
    exact ⟨f c, by rw [Mem.node_update_self, hc, Option.map_some], Or.inr rfl⟩
  · exact ⟨c, by rw [Mem.node_update_ne m f hb, hc], Or.inl rfl⟩

def FrameAccounted (f : Frame) (m : Mem) : Prop :=
  match f with
  | .main pc => Accounted m pc
  | _ => True

/-- The sections that readFile returns are in nodes of their own. -/
def Fresh (ans : Ans) : Prop := ∀ files, ans.files = some files → (freeFiledate files).Nodup

theorem readFile_fresh {dat : List Byte} {brk : Addr} {q : ReadResult} (h : ReadFile (some dat) true brk q)
    {files : List (Addr × Filedate)} (hf : q.res = some files) : (freeFiledate files).Nodup := by
  obtain ⟨s, hgo, hlast⟩ := Leaves.last h
  have hl : Ledger brk s := hgo.keep (ledger_start brk) fun a b ha hb => ha.step hb
  have hfiles : files = setDate s := by
    simp only [readBody] at hlast
    repeat' split at hlast
    all_goals cases hlast
    all_goals cases hf
    rfl
  have hnodup := hl.closed.nodup
  rw [← hfiles] at hnodup
  rw [List.nodup_iff_count_le_one]
  intro e
  by_cases he : e ∈ freeFiledate files
  · have hone : ∀ a, e.frees a = true → (freeFiledate files).count e ≤ 1 := by
      intro a ha
      refine (List.countP_mono_left fun x _ hx => ?_).trans
        ((freeFiledate_frees files a).le.trans (List.nodup_iff_count_le_one.mp hnodup a))
      rw [beq_iff_eq.mp hx]
      exact ha
    obtain (⟨a, rfl⟩ | ⟨a, rfl⟩) := freeFiledate_events he
    · exact hone a (by simp [Event.frees])
    · exact hone a (by simp [Event.frees])
  · rw [List.count_eq_zero_of_not_mem he]
    exact Nat.zero_le 1

theorem accounted_intro {m : Mem} {pc : MainPc} (hs : Stock m pc.hands) (ha : Relies m pc) : Accounted m pc := fun _ => ⟨hs, ha⟩

theorem Stock.fill {m : Mem} {tem : Addr} {i : LibInfo} {f : Field} {fs : List Field} {n : Nat}
    (hf : f :: fs = fields ∨ .fdlib ∉ f :: fs) (s : Stock m (MainPc.fill tem i (f :: fs) n).hands) {c : Cycdata}
    (hc : m.node tem = some c) (hlib : .fdlib ∈ f :: fs → c.libdata.fdlib = none) :
    Stock (m.update tem fun c => f.store i c) (MainPc.fill tem i fs n).hands ∧ .fdlib ∉ fs := by
  cases hf with
  | inl hfields =>
    obtain ⟨rfl, rfl⟩ := List.cons.inj hfields
    exact ⟨Stock.store s hc (hlib (by simp)), by simp [Method.all]⟩
  | inr hnot =>
    have hfs : .fdlib ∉ fs := fun h => hnot (List.mem_cons_of_mem f h)
    have hne : f ≠ .fdlib := fun h => hnot (h ▸ List.mem_cons_self)
    refine ⟨?_, hfs⟩
    simp only [MainPc.hands, if_neg hnot, if_neg hfs] at s ⊢
    refine s.update tem (s.list.congr (Mem.nxt_update m tem fun c => ?_) rfl) (fun _ c => ?_) (fun _ c _ x hx => ?_)
    · cases f with
      | method k => cases k <;> rfl
      | _ => rfl
    · cases f with
      | method k => cases k <;> rfl
      | fdlib => exact absurd rfl hne
      | _ => rfl
    · cases f with
      | method k => cases k <;> exact hx
      | _ => exact hx

def StepAccounted (r : Ctl Frame × Mem) : Prop := ∀ g ∈ r.1.frames, FrameAccounted g r.2

theorem step_crash (m : Mem) : StepAccounted (crash m) := fun g hg => by cases hg

theorem step_goto {pc : MainPc} {n : Mem} (h : Accounted n pc) : StepAccounted (.goto (.main pc), n) := by
  intro g hg
  rw [List.mem_singleton.mp hg]
  exact h

theorem step_over {pc : MainPc} {n : Mem} (h : pc.over = true) : StepAccounted (.goto (.main pc), n) :=
  step_goto fun hno => absurd h (by simp [hno])

section Main
variable (dirch : List Byte) (ans : Ans) {m : Mem}

theorem malloc_accounted (i : LibInfo) (ok : Bool) (k : Nat) (h : Accounted m (.malloc i ok k)) :
    StepAccounted (mainStep dirch (.malloc i ok k) ans m) := by
  obtain ⟨s, ha⟩ := h rfl
  cases ok with
  | false => exact step_over rfl
  | true =>
    obtain ⟨hs, l, hl, hl'⟩ := s.malloc
    refine step_goto (accounted_intro hs ⟨fun k hk hne => ?_, Cycdata.zero, m.nodes.cell_alloc_self _, rfl, rfl⟩)
    have hkl := chain_unique hk hl'
    subst hkl
    exact ha k hl hne

theorem linkHead_accounted (tem : Addr) (i : LibInfo) (k : Nat) (h : Accounted m (.linkHead tem i k)) :
    StepAccounted (mainStep dirch (.linkHead tem i k) ans m) := by
  obtain ⟨s, ht, c, hc, hnext, hlib⟩ := h rfl
  simp only [mainStep]
  cases hl : TimeTask.linkHead tem m with
  | none => exact step_crash m
  | some n =>
    obtain ⟨hs, hlast, d, hd, hdl⟩ := s.linkHead ht hc hnext hl
    exact step_goto (accounted_intro hs ⟨hlast, d, hd, by rw [hdl]; exact hlib⟩)

theorem linkTail_accounted (tem : Addr) (i : LibInfo) (k : Nat) (h : Accounted m (.linkTail tem i k)) :
    StepAccounted (mainStep dirch (.linkTail tem i k) ans m) := by
  obtain ⟨s, hlast, c, hc, hlib⟩ := h rfl
  refine step_goto (accounted_intro ?_ ⟨fun l hl _ => ?_, Or.inl rfl, c, hc, fun _ => hlib⟩)
  · exact ⟨s.list, s.libs, s.logs, s.kept, s.files⟩
  · exact (hlast l hl).symm

theorem fill_accounted (tem : Addr) (i : LibInfo) (fs : List Field) (k : Nat) (h : Accounted m (.fill tem i fs k)) :
    StepAccounted (mainStep dirch (.fill tem i fs k) ans m) := by
  obtain ⟨s, ht, hf, c, hc, hlib⟩ := h rfl
  cases fs with
  | nil =>
    have hs : Stock m .free := by simpa [MainPc.hands] using s
    exact step_goto (accounted_intro hs ht)
  | cons f fs =>
    obtain ⟨hs, hnot⟩ := Stock.fill hf s hc hlib
    have hnext : ∀ c : Cycdata, (f.store i c).next = c.next := by
      intro c
      cases f with
      | method k => cases k <;> rfl
      | _ => rfl
    have hcell : (m.update tem fun c => f.store i c).node tem = some (f.store i c) := by
      rw [Mem.node_update_self, hc]
      rfl
    exact step_goto (accounted_intro hs ⟨ht.congr (Mem.nxt_update m tem hnext) rfl rfl, Or.inr hnot,
      f.store i c, hcell, fun hm => absurd hm hnot⟩)

theorem bind_accounted (chead : Option Addr) (fs : List (Addr × Filedate)) (h : Accounted m (.bind chead fs)) :
    StepAccounted (mainStep dirch (.bind chead fs) ans m) := by
  obtain ⟨s, ha⟩ := h rfl
  cases fs with
  | nil => exact step_goto (accounted_intro s (ha.resolve_left fun hn => hn rfl))
  | cons f fs =>
    simp only [mainStep]
    cases matchModule m f.2.name chead with
    | none => exact step_crash m
    | some o =>
      cases o with
      | none => exact step_over rfl
      | some a =>
        simp only
        cases hc : m.node a with
        | none => exact step_crash m
        | some c =>
          simp only
          split_ifs
          · exact step_over rfl
          · exact step_goto (accounted_intro s ⟨c, hc⟩)

theorem setFdate_accounted (a f : Addr) (chead : Option Addr) (fs : List (Addr × Filedate)) (h : Accounted m (.setFdate a f chead fs)) :
    StepAccounted (mainStep dirch (.setFdate a f chead fs) ans m) := by
  obtain ⟨s, c, hc⟩ := h rfl
  refine step_goto (accounted_intro ?_ ⟨a, { c with fdate := some f }, by simp, ?_, by simp⟩)
  · exact s.update a (s.list.congr (Mem.nxt_update m a fun _ => rfl) rfl) (fun _ _ => rfl) fun _ _ _ _ hx => hx
  · rw [setFdate, Mem.node_update_self, hc]
    rfl

theorem setLd_accounted (a : Addr) (chead : Option Addr) (fs : List (Addr × Filedate)) (h : Accounted m (.setLd a chead fs)) :
    StepAccounted (mainStep dirch (.setLd a chead fs) ans m) := by
  obtain ⟨s, ha⟩ := h rfl
  refine step_goto (accounted_intro ?_ (Or.inr (ha.congr fun b c hb hc _ => ⟨hb, ?_⟩)))
  · refine s.update a (s.list.congr (Mem.nxt_update m a fun _ => rfl) rfl) (fun _ _ => rfl) fun _ c _ x hx => ?_
    simp [ownLog] at hx
  · obtain ⟨d, hd, he⟩ := update_cell m a (fun c => { c with ld := m.mainld }) hc
    exact ⟨d, hd, he.elim (fun he => by rw [he]) fun he => by rw [he]⟩

theorem sweep_accounted (cyctem : Option Addr) (h : Accounted m (.sweep cyctem)) :
    StepAccounted (mainStep dirch (.sweep cyctem) ans m) := by
  obtain ⟨s, ha⟩ := h rfl
  cases cyctem with
  | none => exact step_goto (accounted_intro s ha)
  | some a =>
    simp only [mainStep]
    cases hc : m.node a with
    | none => exact step_crash m
    | some c =>
      simp only
      split_ifs with hf
      · exact step_goto (accounted_intro s ⟨ha, c, hc, hf⟩)
      · exact step_goto (accounted_intro s ha)

theorem unlink_accounted (a : Addr) (cycnext : Option Addr) (h : Accounted m (.unlink a cycnext)) :
    StepAccounted (mainStep dirch (.unlink a cycnext) ans m) := by
  obtain ⟨s, hk, c, hc, hf⟩ := h rfl
  simp only [mainStep]
  cases hs : freeSearch m a m.nodes.brk m.cychead none with
  | none => exact step_crash m
  | some o =>
    cases o with
    | none => exact step_over rfl
    | some BB =>
      simp only
      cases hu : unlinkCycdata a BB m with
      | none => exact step_crash m
      | some n =>
        obtain ⟨hst, hbody⟩ := s.unlink hs hu
        refine step_goto (accounted_intro hst ⟨hk.congr fun b d _ hd hdf => ⟨fun he => ?_, ?_⟩, List.suffix_refl _⟩)
        · rw [Option.some.inj he, hd] at hc
          cases hc
          exact hdf hf
        · obtain ⟨r, hr⟩ := body_eq_some (congrFun hbody b) hd
          exact ⟨_, hr, rfl⟩

theorem cleanup_accounted (a : Addr) (ss : List Cleanup) (cycnext : Option Addr) (h : Accounted m (.cleanup a ss cycnext)) :
    StepAccounted (mainStep dirch (.cleanup a ss cycnext) ans m) := by
  obtain ⟨s, hk, hsuf⟩ := h rfl
  cases ss with
  | nil => exact step_goto (accounted_intro s (hk.congr fun b c _ hc _ => ⟨by simp, c, hc, rfl⟩))
  | cons t ss =>
    simp only [mainStep]
    cases he : t.exec a m with
    | none => exact step_crash m
    | some n =>
      have hsub : ss <:+ freeCleanup := (List.suffix_cons t ss).trans hsuf
      refine step_goto (accounted_intro (s.clean hsuf he) ⟨hk.congr fun b c hb hc _ => ⟨hb, ?_⟩, hsub⟩)
      obtain ⟨r, hr⟩ := body_eq_some ((exec_spares he).body b fun hba => hb (congrArg some hba.symm)) hc
      exact ⟨_, hr, rfl⟩

theorem method_accounted (a : Addr) (ks : List Method) (h : Accounted m (.method a ks)) :
    StepAccounted (mainStep dirch (.method a ks) ans m) := by
  obtain ⟨s, ha⟩ := h rfl
  cases ks with
  | nil =>
    simp only [mainStep]
    cases m.nxt a with
    | none => exact step_crash m
    | some r => exact step_goto (accounted_intro s ha)
  | cons k ks =>
    simp only [mainStep]
    cases m.node a with
    | none => exact step_crash m
    | some c =>
      simp only
      split_ifs
      · exact step_goto (accounted_intro s ha)
      · exact step_goto (accounted_intro ⟨s.list, s.libs, s.logs, s.kept, s.files⟩ ha)

/-- One statement of main keeps its assertion. -/
theorem mainStep_accounted (pc : MainPc) (hans : Fresh ans) (h : Accounted m pc) : StepAccounted (mainStep dirch pc ans m) := by
  cases pc with
  | END =>
    intro g hg
    simp only [mainStep, Ctl.frames, List.mem_cons, List.not_mem_nil, or_false] at hg
    obtain rfl | rfl := hg
    · trivial
    · exact fun ho => by cases ho
  | done =>
    intro g hg
    cases hg
  | loadFile =>
    obtain ⟨s, ha⟩ := h rfl
    simp only [mainStep]
    cases ans.conf with
    | none => exact step_over rfl
    | some head => exact step_goto (accounted_intro ⟨s.list, s.libs, s.logs, s.kept, s.files⟩ ha)
  | readFile =>
    obtain ⟨s, ha⟩ := h rfl
    simp only [mainStep]
    cases hf : ans.files with
    | none => exact step_over rfl
    | some files =>
      refine step_goto (accounted_intro ?_ ha)
      exact ⟨s.list, s.libs, s.logs, s.kept, hans files hf⟩
  | opendir =>
    obtain ⟨s, ha⟩ := h rfl
    simp only [mainStep]
    split_ifs
    · exact step_goto (accounted_intro ⟨s.list, s.libs, s.logs, s.kept, s.files⟩ ha)
    · exact step_over rfl
  | readdir k =>
    obtain ⟨s, ha⟩ := h rfl
    simp only [mainStep]
    cases ans.entry with
    | none =>
      split_ifs
      · exact step_over rfl
      · exact step_goto (accounted_intro ⟨s.list, s.libs, s.logs, s.kept, s.files⟩ trivial)
    | some e =>
      simp only
      split_ifs
      · exact step_goto (accounted_intro s ha)
      · exact step_crash m
      · exact step_goto (accounted_intro s ha)
  | dlopen e k =>
    obtain ⟨s, ha⟩ := h rfl
    simp only [mainStep]
    cases e.lib with
    | none => exact step_over rfl
    | some syms => exact step_goto (accounted_intro s.dlopen ha)
  | dlsym i ok k =>
    obtain ⟨s, ha⟩ := h rfl
    simp only [mainStep]
    split_ifs
    · cases TimeTask.dlclose i.dirhandletem m with
      | none => exact step_crash m
      | some n => exact step_over rfl
    · exact step_goto (accounted_intro s ha)
  | malloc i ok k => exact malloc_accounted dirch ans i ok k h
  | linkHead tem i k => exact linkHead_accounted dirch ans tem i k h
  | linkTail tem i k => exact linkTail_accounted dirch ans tem i k h
  | fill tem i fs k => exact fill_accounted dirch ans tem i fs k h
  | toSet =>
    obtain ⟨s, _⟩ := h rfl
    simp only [mainStep]
    split_ifs with hne
    · exact step_over rfl
    · exact step_goto (accounted_intro s (Or.inl fun hn => hne (Or.inl hn)))
  | bind chead fs => exact bind_accounted dirch ans chead fs h
  | setFdate a f chead fs => exact setFdate_accounted dirch ans a f chead fs h
  | setLd a chead fs => exact setLd_accounted dirch ans a chead fs h
  | sweep cyctem => exact sweep_accounted dirch ans cyctem h
  | unlink a cycnext => exact unlink_accounted dirch ans a cycnext h
  | cleanup a ss cycnext => exact cleanup_accounted dirch ans a ss cycnext h
  | timeInit =>
    obtain ⟨s, ha⟩ := h rfl
    exact step_goto (accounted_intro s ha)
  | initAt cyctem =>
    obtain ⟨s, ha⟩ := h rfl
    cases cyctem <;> exact step_goto (accounted_intro s ha)
  | method a ks => exact method_accounted dirch ans a ks h
  | wait a k ks =>
    have hw : Accounted (m.methodRet 0 a k ans) (.method a ks) :=
      Accounted.works (accounted_intro (h rfl).1 (h rfl).2) (works_methodRet 0 a k ans m)
    simp only [mainStep]
    split_ifs
    · exact step_over rfl
    · exact step_goto hw
  | pause =>
    obtain ⟨s, ha⟩ := h rfl
    exact step_goto (accounted_intro s ha)

end Main

/-- No stop signal; any timer signals, any answers, and any log lines that lose their file. -/
def NoStop {F : Type*} (_ : Config F Mem) : Label Ans Signal → Prop
  | .run ans => Fresh ans
  | .signal .alarm => True
  | .signal .usr1 => False

/-- Above main there are timer handlers, and gameover once main has given up. -/
def Frame.Upon (f g : Frame) : Prop := f.above g = true ∧ ∀ pc, g = .main pc → f.isTick = true ∨ pc.over = true

theorem upon_sits (dirch : List Byte) {ok : Config Frame Mem → Label Ans Signal → Prop}
    (hno : ∀ c, ¬ ok c (.signal .usr1)) : (daemon dirch).Sits ok Frame.Upon := by
  have hs := daemon_sits dirch ok
  refine ⟨fun f ans m g hfg h hh => ⟨hs.step f ans m g hfg.1 h hh, fun pc hpc => ?_⟩,
    fun f ans m g h hc => ⟨hs.call f ans m g h hc, fun pc hpc => Or.inr ?_⟩,
    fun c s hok hb g hg => ⟨hs.enter c s hok hb g hg, fun pc _ => Or.inl ?_⟩⟩
  · refine (hfg.2 pc hpc).imp_left fun ht => ?_
    cases f with
    | main q => cases ht
    | gameover who sig q => cases ht
    | tick who q =>
      obtain ⟨q', hq⟩ := (tickStep_stays who q ans m).frames h hh
      rw [hq]
      rfl
  · have he := (daemon_call dirch hc).1
    rw [hpc] at he
    cases he
    rfl
  · cases s with
    | alarm => rfl
    | usr1 => exact absurd hok (hno c)

/-- An assertion of main that its statements keep and that no timer handler disturbs. -/
structure MainInv (dirch : List Byte) (good : Ans → Prop) (A : Mem → MainPc → Prop) : Prop where
  step : ∀ pc ans m, good ans → pc.over = false → A m pc →
    ∀ q, .main q ∈ (mainStep dirch pc ans m).1.frames → A (mainStep dirch pc ans m).2 q
  tick : ∀ who q ans m pc, A m pc → A (tickStep who q ans m).2 pc
  alarm : ∀ m k pc, A m pc → A { m with signals := k } pc

/-- One statement, or one signal. -/
theorem MainInv.next {dirch : List Byte} {good : Ans → Prop} {A : Mem → MainPc → Prop} (hA : MainInv dirch good A)
    {c c' : Config Frame Mem} {l : Label Ans Signal} (hst : c.stack.Pairwise Frame.Upon)
    (h : ∀ pc, .main pc ∈ c.stack → pc.over = false → A c.mem pc) (hgood : ∀ ans, l = .run ans → good ans)
    (hno : l ≠ .signal .usr1) (hn : (daemon dirch).next c l = some c') :
    ∀ pc, .main pc ∈ c'.stack → pc.over = false → A c'.mem pc := by
  cases l with
  | signal s =>
    simp only [Machine.next] at hn
    split_ifs at hn
    cases hn
    cases s with
    | usr1 => exact absurd rfl hno
    | alarm =>
      intro pc hpc ho
      cases List.mem_cons.mp hpc with
      | inl he => cases he
      | inr hm => exact hA.alarm _ _ _ (h pc hm ho)
  | run ans =>
    obtain ⟨fs, m⟩ := c
    cases fs with
    | nil => cases hn
    | cons f fs =>
      cases hn
      obtain ⟨habove, _⟩ := List.pairwise_cons.mp hst
      intro pc hpc ho
      have hmem : .main pc ∈ ((daemon dirch).step f ans m).1.frames ∨ .main pc ∈ fs := by
        cases Machine.Ctl.apply_cases ((daemon dirch).step f ans m).1 fs with
        | inl he =>
          simp only [he] at hpc
          cases hpc
        | inr he => exact List.mem_append.mp (he ▸ hpc)
      cases f with
      | main q =>
        have hnew : .main pc ∈ (mainStep dirch q ans m).1.frames := hmem.resolve_right fun hp => by cases (habove _ hp).1
        have hq : q.over = false := by
          cases q with
          | END =>
            simp only [mainStep, Ctl.frames, List.mem_cons, reduceCtorEq, Frame.main.injEq, List.not_mem_nil,
              or_false, false_or] at hnew
            rw [hnew] at ho
            cases ho
          | done => cases hnew
          | _ => rfl
        exact hA.step q ans m (hgood ans rfl) hq (h q List.mem_cons_self hq) pc hnew
      | tick who q =>
        have hold : .main pc ∈ fs := by
          refine hmem.resolve_left fun hnew => ?_
          obtain ⟨q', hq⟩ := (tickStep_stays who q ans m).frames _ hnew
          cases hq
        exact hA.tick who q ans m pc (h pc (List.mem_cons_of_mem _ hold) ho)
      | gameover who sig q =>
        -- main has given up
        exfalso
        have hover : pc.over = true := by
          cases hmem with
          | inl hnew =>
            obtain ⟨q', hq⟩ := (overStep_stays who sig q ans m).frames _ hnew
            cases hq
          | inr hold => exact ((habove _ hold).2 pc rfl).resolve_left (by simp [Frame.isTick])
        exact Bool.noConfusion (ho.symm.trans hover)

theorem stock_init : Stock Mem.init .free := by
  have hno : ∀ a c, Mem.init.node a ≠ some c := fun a c hc => by cases hc
  constructor
  · exact ⟨[], rfl, fun a => by simp [Mem.nxt, Heap.next, Mem.init, Heap.empty], fun _ h => by cases h⟩
  · refine ⟨fun o x ho => ?_, fun o p x ho _ => ?_⟩
    all_goals cases o with
    | none => cases ho
    | some a => exact absurd ho.2.choose_spec.1 (hno a _)
  · refine ⟨fun a x ho => ?_, fun a b x ho _ => ?_⟩
    all_goals exact absurd ho.2.choose_spec.1 (hno a _)
  · exact fun x hx => by cases hx
  · exact List.nodup_nil

theorem accounted_start : Accounted Mem.init .loadFile := accounted_intro stock_init fun _ hl hne =>
  absurd (chain_unique hl (show Mem.init.ListIs [] from rfl)) hne

/-- What holds in every run without a stop: while main has not given up, all that it has acquired is
accounted for, and the main log is open until a line loses it. -/
structure RunAccounted (c : Config Frame Mem) : Prop where
  stack : c.stack.Pairwise Frame.Upon
  main : ∀ pc, .main pc ∈ c.stack → Accounted c.mem pc
  log : ∀ pc, .main pc ∈ c.stack → pc.over = false → MainLog c.mem

theorem RunAccounted.start : RunAccounted daemonStart := by
  refine ⟨by simp [daemonStart], fun pc hpc => ?_, fun pc hpc _ => ⟨0, rfl, Nat.one_pos, ?_⟩⟩
  · cases List.mem_singleton.mp hpc
    exact accounted_start
  · exact iff_of_true rfl List.not_mem_nil

theorem accounted_inv (dirch : List Byte) : MainInv dirch Fresh Accounted :=
  ⟨fun pc ans _ hgood _ h _ hq => mainStep_accounted dirch ans pc hgood h _ hq,
    fun who q ans m _ h => h.works (tickStep_works who q ans m), fun m k _ h => h.work (.signals m k)⟩

theorem mainLog_inv (dirch : List Byte) : MainInv dirch (fun _ => True) fun m _ => MainLog m :=
  ⟨fun pc ans m _ _ h _ _ => h.keep (mainStep_keepsLog dirch pc ans m),
    fun who q ans m _ h => h.keep (tickStep_keepsLog who q ans m), fun _ _ _ h => h.keep (.same rfl rfl rfl)⟩

theorem RunAccounted.next {dirch : List Byte} {c c' : Config Frame Mem} {l : Label Ans Signal} (h : RunAccounted c)
    (hok : NoStop c l) (hn : (daemon dirch).next c l = some c') : RunAccounted c' := by
  have hfresh : ∀ ans, l = .run ans → Fresh ans := fun ans he => by
    rw [he] at hok
    exact hok
  have hno : l ≠ .signal .usr1 := fun he => by
    rw [he] at hok
    exact hok
  refine ⟨(upon_sits dirch fun _ h => h).next h.stack hok hn, fun pc hpc hover => ?_,
    (mainLog_inv dirch).next h.stack h.log (fun _ _ => trivial) hno hn⟩
  exact (accounted_inv dirch).next h.stack (fun pc hpc _ => h.main pc hpc) hfresh hno hn pc hpc hover hover

theorem RunAccounted.line {fs : List Frame} {m n : Mem} {lost : Bool} (h : RunAccounted ⟨fs, m⟩)
    (hl : m.logLog lost = some n) : RunAccounted ⟨fs, n⟩ := by
  refine ⟨h.stack, fun pc hpc => ?_, fun pc hpc ho => (h.log pc hpc ho).line hl⟩
  obtain rfl | ⟨_, x, hx, rfl⟩ := logLog_cases hl
  · exact h.main pc hpc
  · exact (h.main pc hpc).work (.lose m x hx)

theorem accounted_run {dirch : List Byte} {confwhere libwhere : Bool} {c : Config (Layer Frame Nat) Mem}
    (hr : (loggedDaemon dirch libwhere).Reach NoStop (loggedStart confwhere) c) : RunAccounted c.code := by
  refine hr.code_keep ?_ ?_ (fun d l d' hd hok hn => hd.next ?_ hn) (fun fs m _ a n h hl => h.line hl) fun fs m h => ?_
  · cases confwhere
    · trivial
    · exact ⟨⟨_, _, rfl, trivial⟩, trivial⟩
  · cases confwhere <;> exact RunAccounted.start
  · exact hok
  · exact ⟨List.Pairwise.nil, fun pc hpc => absurd hpc List.not_mem_nil, fun pc hpc => absurd hpc List.not_mem_nil⟩

theorem mem_code {c : Config (Layer Frame Nat) Mem} {f : Frame} (h : .code f ∈ c.stack) : f ∈ c.code.stack :=
  List.mem_filterMap.mpr ⟨_, h, rfl⟩

theorem fresh_world (syms : Method → Option Addr) (e : Option Entry) : Fresh { world syms with entry := e } := by
  intro files hf
  cases hf
  decide

/-- The option -c, a configuration with one section and its library, up to the wait for signals. -/
def waiting : List (Label Ans Signal) :=
  List.replicate 25 (.run (world fun _ => some 0)) ++
    List.replicate 24 (.run { world (fun _ => some 0) with entry := none })

/-- A tick whose line about seach loses its file. -/
def losing : List (Label Ans Signal) :=
  .signal .alarm :: List.replicate 6 (.run (world fun _ => some 0)) ++
    [.run { world (fun _ => some 0) with ret := -1 }, .run { world (fun _ => some 0) with lost := true }]

theorem noStop_waiting : ∀ l ∈ waiting, ∀ c : Config (Layer Frame Nat) Mem, NoStop c l := by
  intro l hl c
  simp only [waiting, List.mem_append, List.mem_replicate] at hl
  obtain ⟨_, rfl⟩ | ⟨_, rfl⟩ := hl
  · exact fresh_world (fun _ => some 0) (some (liba fun _ => some 0))
  · exact fresh_world (fun _ => some 0) none

theorem noStop_losing : ∀ l ∈ losing, ∀ c : Config (Layer Frame Nat) Mem, NoStop c l := by
  intro l hl c
  have hfresh := fresh_world (fun _ => some 0) (some (liba fun _ => some 0))
  simp only [losing, List.cons_append, List.mem_cons, List.mem_append, List.mem_replicate, List.not_mem_nil,
    or_false] at hl
  obtain rfl | ⟨_, rfl⟩ | rfl | rfl := hl
  · trivial
  · exact hfresh
  · exact hfresh
  · exact hfresh

def Layer.pausing : Layer Frame Nat → Bool
  | .code (.main .pause) => true
  | _ => false

theorem mem_pausing {fs : List (Layer Frame Nat)} (h : true ∈ fs.map Layer.pausing) : .code (.main .pause) ∈ fs := by
  obtain ⟨f, hf, hp⟩ := List.mem_map.mp h
  cases f with
  | aside ls => cases hp
  | code f =>
    cases f with
    | main pc =>
      cases pc with
      | pause => exact hf
      | _ => cases hp
    | _ => cases hp

theorem run_losing : ∃ c : Config (Layer Frame Nat) Mem,
    (loggedDaemon [] false).Reach NoStop (loggedStart true) c ∧ c.stack.map Layer.pausing = [false, false, true] ∧
      ∃ x, c.mem.mainld = some x ∧ .logDel x ∈ c.mem.trace := by
  have hx : ((loggedDaemon [] false).exec (waiting ++ losing) (loggedStart true)).map
      (fun c => (c.stack.map Layer.pausing, c.mem.mainld, decide (.logDel 0 ∈ c.mem.trace))) =
        some ([false, false, true], some 0, true) := by
    rfl
  obtain ⟨c, hc, hs⟩ := Option.map_eq_some_iff.mp hx
  obtain ⟨hst, hs⟩ := Prod.ext_iff.mp hs
  obtain ⟨hmain, hlost⟩ := Prod.ext_iff.mp hs
  refine ⟨c, Machine.reach_of_exec _ (fun l hl d => ?_) .refl hc, hst, 0, hmain, of_decide_eq_true hlost⟩
  cases List.mem_append.mp hl with
  | inl hl => exact noStop_waiting l hl d
  | inr hl => exact noStop_losing l hl d

/-- While main has not given up, wherever the timer interrupts it and whatever happens to the log
file: a node is on the list or in the hand of main, each dlopen that is not closed has one holder,
the log of a node is open and no other node's, and the main log is open as long as no line has
lost it. -/
theorem holdings_accounted (dirch : List Byte) (confwhere libwhere : Bool) (c : Config (Layer Frame Nat) Mem)
    (hr : (loggedDaemon dirch libwhere).Reach NoStop (loggedStart confwhere) c) (pc : MainPc)
    (hpc : .code (.main pc) ∈ c.stack) (hover : pc.over = false) :
    (∃ l, c.mem.ListIs l ∧ ∀ a, (∃ d, c.mem.node a = some d) ↔ Xor (a ∈ l) (pc.hands.node = some a)) ∧
    (∀ x, (c.mem.libs.cell x).isSome ↔ ∃! o, c.mem.ownsLib pc.hands o x) ∧
    (∀ a x, c.mem.ownsLog pc.hands a x → (c.mem.logs.cell x).isSome ∧ c.mem.mainld ≠ some x ∧
      ∀ b, c.mem.ownsLog pc.hands b x → b = a) ∧
    ∃ x, c.mem.mainld = some x ∧ ((c.mem.logs.cell x).isSome ↔ .logDel x ∉ c.mem.trace) := by
  have hrun := accounted_run hr
  obtain ⟨s, _⟩ := hrun.main pc (mem_code hpc) hover
  obtain ⟨x, hx, _, hopen⟩ := hrun.log pc (mem_code hpc) hover
  refine ⟨?_, fun x => ⟨fun hx => ?_, fun ho => ?_⟩, fun a x ho => ⟨s.logs.isOpen a x ho, ?_, fun b hb => ?_⟩,
    x, hx, hopen⟩
  · obtain ⟨l, hl, hall, hnot⟩ := s.list
    refine ⟨l, hl, fun a => ?_⟩
    have hlive : (∃ d, c.mem.node a = some d) ↔ (c.mem.nxt a).isSome = true := by
      rw [Mem.nxt_eq, Option.isSome_map, Option.isSome_iff_exists]
    have hall' : (c.mem.nxt a).isSome = true ↔ a ∈ l ∨ pc.hands.node = some a := hall a
    rw [hlive, hall']
    constructor
    · rintro (hm | hh)
      · exact Or.inl ⟨hm, hnot a hm⟩
      · exact Or.inr ⟨hh, fun hm => hnot a hm hh⟩
    · rintro (hm | hh)
      · exact Or.inl hm.1
      · exact Or.inr hh.1
  · obtain ⟨o, ho⟩ := s.kept x hx
    exact ⟨o, ho, fun p hp => s.libs.apart p o x hp ho⟩
  · obtain ⟨o, ho, _⟩ := ho
    exact s.libs.isOpen o x ho
  · obtain ⟨_, d, _, hd⟩ := ho
    exact ownLog_ne_mainld hd
  · exact s.logs.apart b a x hb ho

/-- A tick has lost the main log, and the library is still the module's. -/
theorem holdings_accounted_lost : ∃ (c : Config (Layer Frame Nat) Mem) (x : Addr),
    (loggedDaemon [] false).Reach NoStop (loggedStart true) c ∧ c.stack.map Layer.pausing = [false, false, true] ∧
      (∀ x, (c.mem.libs.cell x).isSome ↔ ∃! o, c.mem.ownsLib .free o x) ∧ c.mem.mainld = some x ∧
      (c.mem.logs.cell x).isSome = false := by
  obtain ⟨c, hr, hst, hlost⟩ := run_losing
  have hm : .code (.main .pause) ∈ c.stack := mem_pausing (by rw [hst]; simp)
  obtain ⟨_, hlibs, _, x, hmx, hopen⟩ := holdings_accounted [] true false c hr .pause hm rfl
  obtain ⟨y, hy, hty⟩ := hlost
  have hxy : x = y := Option.some.inj (hmx.symm.trans hy)
  rw [← hxy] at hty
  exact ⟨c, x, hr, hst, hlibs, hmx, Bool.eq_false_iff.mpr fun ho => hopen.mp ho hty⟩

theorem hands_node {pc : MainPc} {a : Addr} (h : pc.hands.closed = some a ∨ pc.hands.logged = some a) :
    pc.hands.node = some a := by
  cases pc with
  | cleanup b ss p =>
    simp only [MainPc.hands, cleanHands] at h ⊢
    cases h with
    | inl h =>
      split_ifs at h with hs
      rwa [if_pos hs.1]
    | inr h =>
      split_ifs at h with hs
      rwa [if_pos hs.1]
  | _ =>
    cases h with
    | inl h => cases h
    | inr h => cases h

theorem Stock.handlesOk {m : Mem} {pc : MainPc} (s : Stock m pc.hands) {l : List Addr} (hl : m.ListIs l) :
    HandlesOk m l := by
  obtain ⟨k, hk, _, hnot⟩ := s.list
  have hkl := chain_unique hk hl
  subst hkl
  have hlib : ∀ a ∈ k, ∀ c, m.node a = some c → ∀ h, c.libdata.fdlib = some h → m.ownsLib pc.hands (some a) h :=
    fun a ha c hc h hh => ⟨fun hcl => hnot a ha (hands_node (Or.inl hcl)), c, hc, hh⟩
  have hlog : ∀ a ∈ k, ∀ c, m.node a = some c → ∀ y, ownLog m c = some y → m.ownsLog pc.hands a y :=
    fun a ha c hc y hy => ⟨fun hlg => hnot a ha (hands_node (Or.inr hlg)), c, hc, hy⟩
  refine ⟨fun a ha c hc => ⟨fun y hy hym => ?_, fun h hh => s.libs.isOpen _ h (hlib a ha c hc h hh)⟩,
    fun a ha b hb hab c d hc hd y hy hy' => ?_, fun a ha b hb hab c d hc hd h hh hh' => ?_⟩
  · exact s.logs.isOpen _ y (hlog a ha c hc y (by rw [ownLog, if_neg hym, hy]))
  · exact hab (s.logs.apart _ _ y (hlog a ha c hc y hy) (hlog b hb d hd y hy'))
  · exact hab (Option.some.inj (s.libs.apart _ _ h (hlib a ha c hc h hh) (hlib b hb d hd h hh')))

theorem Stock.releases (dirch : List Byte) (env : Frame → Ans) (who : Nat) (sig : Bool) {m : Mem} {x : Addr}
    (s : Stock m .free) (hne : m.cychead ≠ none) (hx : m.mainld = some x) (hopen : (m.logs.cell x).isSome = true)
    (hlost : (env (.gameover who sig .log)).lost = false) : GameoverReleases dirch env who sig m := by
  obtain ⟨l, hl, hall, _⟩ := s.list
  have hmem : ∀ {a : Addr} {c : Cycdata}, m.node a = some c → a ∈ l := by
    intro a c hc
    refine ((hall a).mp ?_).resolve_right (by simp)
    rw [Mem.nxt_of_node hc]
    rfl
  have hh : HandlesOk m l := Stock.handlesOk (show Stock m (MainPc.hands .pause) from s) hl
  have hnodes : ∀ a ∈ m.nodes.live, a ∈ l := by
    intro a ha
    obtain ⟨c, hc⟩ := Option.isSome_iff_exists.mp ((m.nodes.mem_live a).mp ha)
    exact hmem hc
  have hlibs : ∀ h ∈ m.libs.live, ∃ a ∈ l, ∃ c, m.node a = some c ∧ c.libdata.fdlib = some h := by
    intro h hm
    obtain ⟨o, ho⟩ := s.kept h ((m.libs.mem_live h).mp hm)
    cases o with
    | none => cases ho
    | some a =>
      obtain ⟨_, c, hc, hf⟩ := ho
      exact ⟨a, hmem hc, c, hc, hf⟩
  obtain ⟨n, ht⟩ := torn_of_list hl hh
  obtain ⟨q, xs, hq, hqt, hxs⟩ := gameover_trace dirch env who sig ht hne hx hopen hlost
  exact ⟨q, _, hq, hqt, releasedAll_of_list hxs (chain_nodup hl) hh hnodes hlibs hx s.files⟩

/-- main has come to TimeInit. -/
def MainPc.settled : MainPc → Bool
  | .timeInit => true
  | .initAt _ => true
  | .method _ _ => true
  | .wait _ _ _ => true
  | .pause => true
  | _ => false

theorem settled_hands {m : Mem} {pc : MainPc} (hs : pc.settled = true) (h : Accounted m pc) :
    pc.hands = .free ∧ m.Kept none := by
  cases pc with
  | timeInit => exact ⟨rfl, (h rfl).2⟩
  | initAt p => exact ⟨rfl, (h rfl).2⟩
  | method a ks => exact ⟨rfl, (h rfl).2⟩
  | wait a k ks => exact ⟨rfl, (h rfl).2⟩
  | pause => exact ⟨rfl, (h rfl).2⟩
  | _ => cases hs

theorem Accounted.head {m : Mem} {pc : MainPc} (h : Accounted m pc) (hs : pc.settled = true) : m.cychead ≠ none := by
  obtain ⟨hfree, b, d, _, hd, _⟩ := settled_hands hs h
  intro hn
  have hover : pc.over = false := by cases pc <;> first | rfl | cases hs
  obtain ⟨l, hl, hall, _⟩ := (h hover).1.list
  rw [Mem.ListIs, hn] at hl
  have hb := (hall b).mp (by rw [Mem.nxt_of_node hd]; rfl)
  rw [chain_none hl, hfree] at hb
  simp at hb

theorem hands_free {pc : MainPc} (hn : pc.hands.node = none) (hl : pc.hands.lib = none) : pc.hands = .free := by
  cases pc with
  | dlsym i ok k => cases hl
  | malloc i ok k => cases hl
  | linkHead tem i k => cases hl
  | linkTail tem i k => cases hl
  | fill tem i fs k =>
    simp only [MainPc.hands] at hl ⊢
    rw [hl]
  | cleanup a ss p =>
    have hf : .free ∉ ss := by
      intro hf
      simp [MainPc.hands, cleanHands, hf] at hn
    simp [MainPc.hands, cleanHands, hf]
  | _ => rfl

theorem hands_closed {pc : MainPc} {x : Addr} (hl : pc.hands.lib = some x) : pc.hands.closed = none := by
  cases pc with
  | cleanup a ss p => cases hl
  | _ => rfl

/-- What gameover has not found on the list it has not released. -/
theorem releases_found {dirch : List Byte} {env : Frame → Ans} {who : Nat} {sig : Bool} {m : Mem}
    (h : GameoverReleases dirch env who sig m) {l : List Addr} (hl : m.ListIs l) :
    m.cychead ≠ none ∧ (∀ a ∈ m.nodes.live, a ∈ l) ∧
      ∀ x ∈ m.libs.live, ∃ a ∈ l, ∃ c, m.node a = some c ∧ c.libdata.fdlib = some x := by
  obtain ⟨⟨x, hx, ho⟩, hlost, hne, k, n, ht⟩ := torn_of_releases dirch env h
  have hkl := chain_unique ht.chain hl
  subst hkl
  obtain ⟨m', es, hleave, htr, hr⟩ := h
  obtain ⟨q, xs, hq, hqt, hxs⟩ := gameover_trace dirch env who sig ht hne hx ho hlost
  have he := Leaves.unique hleave hq
  simp only [Prod.mk.injEq, true_and] at he
  rw [← he, htr] at hqt
  have hes := List.append_cancel_left hqt
  -- a release that is none of the last ones is one of the walk
  have hwalk : ∀ e : Event, e.releases = true → e ∉ ending m → e ≠ .logDel x → es.count e = 1 →
      ∃ a ∈ k, e ∈ m.releasesOf a := by
    intro e hrel hend hld hone
    have hm : e ∈ es := List.count_pos_iff.mp (hone ▸ Nat.one_pos)
    have hex : e ≠ .exit := fun h => by rw [h] at hrel; cases hrel
    have hin : e ∈ xs := by
      rw [hes] at hm
      simpa [hend, hld, hex] using hm
    have hf : e ∈ xs.filter Event.releases := List.mem_filter.mpr ⟨hin, hrel⟩
    rw [hxs] at hf
    exact List.mem_flatMap.mp hf
  have hending : ∀ e : Event, e ≠ .freeShead → (∀ a, e ≠ .freeOne a) → (∀ a, e ≠ .freeFile a) → e ∉ ending m := by
    intro e h1 h2 h3 he
    obtain (h | ⟨a, h⟩ | ⟨a, h⟩) := mem_ending he
    · exact h1 h
    · exact h2 a h
    · exact h3 a h
  refine ⟨hne, fun a ha => ?_, fun y hy => ?_⟩
  · obtain ⟨b, hb, heb⟩ := hwalk (.free a) rfl (hending _ (by simp) (by simp) (by simp)) (by simp) (hr.nodes a ha)
    obtain ⟨c, _, (⟨x, _, he⟩ | ⟨x, _, he⟩ | he)⟩ := mem_releasesOf heb
    · cases he
    · cases he
    · cases he
      exact hb
  · obtain ⟨b, hb, heb⟩ := hwalk (.dlclose y) rfl (hending _ (by simp) (by simp) (by simp)) (by simp) (hr.libs y hy)
    obtain ⟨c, hc, (⟨x, _, he⟩ | ⟨x, hx, he⟩ | he)⟩ := mem_releasesOf heb
    · cases he
    · cases he
      exact ⟨b, hb, c, hc, hx⟩
    · cases he

/-- What main has in hand gameover does not find, and a main log that is lost it cannot write to. -/
theorem Stock.releases_iff (dirch : List Byte) (env : Frame → Ans) (who : Nat) (sig : Bool) {m : Mem}
    {pc : MainPc} (s : Stock m pc.hands) :
    GameoverReleases dirch env who sig m ↔
      m.cychead ≠ none ∧ pc.hands.node = none ∧ pc.hands.lib = none ∧
        (∃ x, m.mainld = some x ∧ (m.logs.cell x).isSome) ∧ (env (.gameover who sig .log)).lost = false := by
  obtain ⟨l, hl, hall, hnot⟩ := s.list
  constructor
  · intro h
    obtain ⟨hne, hnodes, hlibs⟩ := releases_found h hl
    obtain ⟨hopen, hlost, _⟩ := torn_of_releases dirch env h
    refine ⟨hne, Option.eq_none_iff_forall_ne_some.mpr fun a ha => ?_,
      Option.eq_none_iff_forall_ne_some.mpr fun x hx => ?_, hopen, hlost⟩
    · have hlive := (hall a).mpr (Or.inr ha)
      rw [Mem.nxt_eq, Option.isSome_map] at hlive
      exact hnot a (hnodes a ((m.nodes.mem_live a).mpr hlive)) ha
    · have hopen := s.libs.isOpen none x hx
      obtain ⟨a, ha, c, hc, hcx⟩ := hlibs x ((m.libs.mem_live x).mpr hopen)
      have hcl : pc.hands.closed ≠ some a := by simp [hands_closed hx]
      cases s.libs.apart none (some a) x hx ⟨hcl, c, hc, hcx⟩
  · rintro ⟨hne, hn, hl, ⟨x, hx, hopen⟩, hlost⟩
    rw [hands_free hn hl] at s
    exact s.releases dirch env who sig hne hx hopen hlost

/-- gameover in its handler, run to its end without another signal, ends the process with everything
released. -/
def StopReleases (dirch : List Byte) (libwhere : Bool) (env : Layer Frame Nat → Ans) (who : Nat) (m : Mem) : Prop :=
  ∃ m' es, Leaves ((loggedDaemon dirch libwhere).soloBody env) (.code (.gameover who true .log), m) (false, m') ∧
    m'.trace = m.trace ++ es ∧ ReleasedAll m es

theorem stopReleases_iff (dirch : List Byte) (libwhere : Bool) (env : Layer Frame Nat → Ans) (who : Nat) (m : Mem) :
    StopReleases dirch libwhere env who m ↔ GameoverReleases dirch (fun f => env (.code f)) who true m := by
  have hrun : ∀ m', Leaves ((loggedDaemon dirch libwhere).soloBody env) (.code (.gameover who true .log), m) (false, m') ↔
      Leaves (overBody dirch fun f => env (.code f)) (.gameover who true .log, m) (false, m') := by
    intro m'
    refine Machine.leaves_code (P := fun f => ∃ q, f = .gameover who true q) ?_ ?_ ⟨_, rfl⟩
    · rintro _ ans m ⟨q, rfl⟩
      exact overStep_stays who true q ans m
    · rintro _ ans m g ⟨q, rfl⟩
      rfl
  constructor
  · rintro ⟨m', es, h, ht⟩
    exact ⟨m', es, (hrun m').mp h, ht⟩
  · rintro ⟨m', es, h, ht⟩
    exact ⟨m', es, (hrun m').mpr h, ht⟩

/-- A line has lost the file of the main log. -/
def Mem.LostLog (m : Mem) : Prop := ∃ x, m.mainld = some x ∧ .logDel x ∈ m.trace

theorem MainLog.open_iff {m : Mem} (h : MainLog m) : (∃ x, m.mainld = some x ∧ (m.logs.cell x).isSome) ↔ ¬ m.LostLog := by
  obtain ⟨x, hx, _, hopen⟩ := h
  constructor
  · rintro ⟨y, hy, hyo⟩ ⟨z, hz, hzt⟩
    rw [hy] at hz hx
    cases hz
    cases hx
    exact hopen.mp hyo hzt
  · intro hno
    exact ⟨x, hx, hopen.mpr fun ht => hno ⟨x, hx, ht⟩⟩

/-- The next line after the one that has lost the main log ends the process. -/
theorem MainLog.line_iff {m : Mem} (h : MainLog m) (lost : Bool) : (m.logLog lost).isSome ↔ ¬ m.LostLog := by
  rw [← h.open_iff]
  obtain ⟨x, hx, _, _⟩ := h
  simp only [Mem.logLog, hx, Option.some.injEq, exists_eq_left']
  cases hc : m.logs.cell x with
  | none => simp
  | some u => cases lost <;> simp [logDel, hc]

/-- Until main gives up no frame keeps the stop signal off. -/
theorem RunAccounted.unblocked {c : Config Frame Mem} (h : RunAccounted c) {pc : MainPc} (hpc : .main pc ∈ c.stack)
    (hover : pc.over = false) (dirch : List Byte) : ∀ f ∈ c.stack, (daemon dirch).blocks f .usr1 = false := by
  intro f hf
  have hpair := h.stack
  obtain ⟨k, r, he⟩ := List.append_of_mem hpc
  rw [he] at hpair hf
  obtain ⟨_, hbelow, habove⟩ := List.pairwise_append.mp hpair
  rw [List.mem_append, List.mem_cons] at hf
  obtain hk | rfl | hr := hf
  · have hfm := (habove f hk (.main pc) (by simp)).2 pc rfl
    rw [hover] at hfm
    cases f with
    | tick who q => rfl
    | main q => rfl
    | gameover who sig q => simp [Frame.isTick] at hfm
  · rfl
  · cases ((List.pairwise_cons.mp hbelow).1 f hr).1

theorem Stock.signals {m : Mem} {h : Hands} (s : Stock m h) (k : Nat) : Stock { m with signals := k } h := by
  have hsig : Work m { m with signals := k } := .signals m k
  exact s.steady hsig.steady (hsig.logs s.logs)

theorem stop_taken {dirch : List Byte} {libwhere : Bool} {c : Config (Layer Frame Nat) Mem} (h : RunAccounted c.code)
    {pc : MainPc} (hpc : .code (.main pc) ∈ c.stack) (hover : pc.over = false) :
    (loggedDaemon dirch libwhere).next c (.signal .usr1) = some ⟨.code (.gameover (c.mem.signals + 1) true .log) :: c.stack,
      { c.mem with signals := c.mem.signals + 1 }⟩ := by
  have hblk : (c.stack.isEmpty || c.stack.any fun f => (loggedDaemon dirch libwhere).blocks f .usr1) = false := by
    rw [Bool.or_eq_false_iff, List.isEmpty_eq_false_iff, List.any_eq_false]
    refine ⟨List.ne_nil_of_mem hpc, fun f hf hb => ?_⟩
    cases f with
    | aside ls => cases hb
    | code f =>
      have hno := h.unblocked (mem_code hpc) hover dirch f (mem_code hf)
      exact Bool.noConfusion (hno.symm.trans hb)
  simp only [Machine.next, hblk]
  rfl

/-- While main has not given up the stop signal is taken at once, between any two statements of
main, of a module's method or of the timer handler and at any log line. gameover then releases
every node, every library, every module log, the configuration and the main log, each of them once,
and exits, if there is a module list, main has nothing in hand, and no line has lost the main log
and the line of gameover does not lose it either; otherwise it does not. From TimeInit on only the
log matters. -/
theorem stop_outcome (dirch : List Byte) (confwhere libwhere : Bool) (c : Config (Layer Frame Nat) Mem)
    (hr : (loggedDaemon dirch libwhere).Reach NoStop (loggedStart confwhere) c) (pc : MainPc)
    (hpc : .code (.main pc) ∈ c.stack) (hover : pc.over = false) (env : Layer Frame Nat → Ans) :
    ∃ m, (loggedDaemon dirch libwhere).next c (.signal .usr1) =
        some ⟨.code (.gameover (c.mem.signals + 1) true .log) :: c.stack, m⟩ ∧
      (StopReleases dirch libwhere env (c.mem.signals + 1) m ↔
        c.mem.cychead ≠ none ∧ pc.hands.node = none ∧ pc.hands.lib = none ∧ ¬ c.mem.LostLog ∧
          (env (.code (.gameover (c.mem.signals + 1) true .log))).lost = false) ∧
      (pc.settled = true → (StopReleases dirch libwhere env (c.mem.signals + 1) m ↔
        ¬ c.mem.LostLog ∧ (env (.code (.gameover (c.mem.signals + 1) true .log))).lost = false)) := by
  have hrun := accounted_run hr
  have hpc' := mem_code hpc
  have hacc := hrun.main pc hpc'
  obtain ⟨s, _⟩ := hacc hover
  have hiff := (s.signals (c.mem.signals + 1)).releases_iff dirch (fun f => env (.code f)) (c.mem.signals + 1) true
  rw [← stopReleases_iff dirch libwhere] at hiff
  have hlog : (∃ x, c.mem.mainld = some x ∧ (c.mem.logs.cell x).isSome) ↔ ¬ c.mem.LostLog :=
    (hrun.log pc hpc' hover).open_iff
  have hone : StopReleases dirch libwhere env (c.mem.signals + 1) { c.mem with signals := c.mem.signals + 1 } ↔
      c.mem.cychead ≠ none ∧ pc.hands.node = none ∧ pc.hands.lib = none ∧ ¬ c.mem.LostLog ∧
        (env (.code (.gameover (c.mem.signals + 1) true .log))).lost = false :=
    hiff.trans (and_congr_right' (and_congr_right' (and_congr_right' (and_congr_left' hlog))))
  refine ⟨_, stop_taken hrun hpc hover, hone, fun hset => ?_⟩
  obtain ⟨hfree, _⟩ := settled_hands hset hacc
  rw [hone, hfree]
  exact ⟨fun h => h.2.2.2, fun h => ⟨hacc.head hset, rfl, rfl, h⟩⟩

/-- A stop while the daemon waits for signals, and one after a tick has lost the main log. -/
theorem stop_outcome_paused :
    (∃ (c : Config (Layer Frame Nat) Mem) (m : Mem), (loggedDaemon [] false).Reach NoStop (loggedStart true) c ∧
      c.stack.map Layer.pausing = [true] ∧
      StopReleases [] false (fun _ => world fun _ => some 0) (c.mem.signals + 1) m) ∧
    ∃ (c : Config (Layer Frame Nat) Mem) (m : Mem), (loggedDaemon [] false).Reach NoStop (loggedStart true) c ∧
      c.stack.map Layer.pausing = [false, false, true] ∧
      ¬ StopReleases [] false (fun _ => world fun _ => some 0) (c.mem.signals + 1) m := by
  constructor
  · have hx : ((loggedDaemon [] false).exec waiting (loggedStart true)).map
        (fun c => (c.stack.map Layer.pausing, c.mem.mainld, decide (.logDel 0 ∈ c.mem.trace))) =
          some ([true], some 0, false) := by
      rfl
    obtain ⟨c, hc, hs⟩ := Option.map_eq_some_iff.mp hx
    obtain ⟨hst, hs⟩ := Prod.ext_iff.mp hs
    obtain ⟨hmain, hlost⟩ := Prod.ext_iff.mp hs
    have hr := Machine.reach_of_exec _ (fun l hl d => noStop_waiting l hl d) .refl hc
    have hm : .code (.main .pause) ∈ c.stack := mem_pausing (by rw [show c.stack.map Layer.pausing = _ from hst]; simp)
    obtain ⟨m, _, _, hset⟩ := stop_outcome [] true false c hr .pause hm rfl fun _ => world fun _ => some 0
    refine ⟨c, m, hr, hst, (hset rfl).mpr ⟨fun ⟨x, hx, ht⟩ => ?_, rfl⟩⟩
    have hx0 : x = 0 := Option.some.inj (hx.symm.trans hmain)
    rw [hx0] at ht
    exact of_decide_eq_false hlost ht
  · obtain ⟨c, hr, hst, hlost⟩ := run_losing
    have hm : .code (.main .pause) ∈ c.stack := mem_pausing (by rw [hst]; simp)
    obtain ⟨m, _, _, hset⟩ := stop_outcome [] true false c hr .pause hm rfl fun _ => world fun _ => some 0
    exact ⟨c, m, hr, hst, fun h => ((hset rfl).mp h).1 hlost⟩

end TimeTask
