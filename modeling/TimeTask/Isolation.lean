import TimeTask.Tick
import TimeTask.Lib.Rounds

/-! The handler of the timer as a product of its modules: each of them, whatever it answers and
whatever period it sets, follows its own automaton. -/
namespace TimeTask
open Lib

/-- Methods that answer `r`: any value, any new tidata, with or without a log opened. -/
def replies (r : Nat → Addr → Method → Ans) : Frame → Ans
  | .main (.wait a k _) => r 0 a k
  | .tick who (.wait a k _) => r who a k
  | .gameover who _ (.wait a) => r who a .deldate
  | _ => ⟨0, none, false, none, none, false, none, false⟩

/-- The node that a method leaves, its log apart. -/
def Ans.obey (ans : Ans) (c : Cycdata) : Cycdata :=
  match ans.tidata with
  | none => c
  | some t => { c with tidata := t }

/-- What TimeDo shows of one module, and the node it leaves. -/
def timeDo (r : Method → Ans) (who : Nat) (a : Addr) : List Method → Cycdata → List Event × Cycdata
  | [], c => ([], c)
  | k :: ks, c =>
    if c.method k = none then timeDo r who a ks c
    else if (r k).ret < 0 then ([.call who a k, .ret who a k (r k).ret], (r k).obey c)
    else
      let rest := timeDo r who a ks ((r k).obey c)
      (.call who a k :: .ret who a k (r k).ret :: rest.1, rest.2)

/-- Whether a call of TimeDo fails. -/
def fails (r : Method → Ans) (ks : List Method) (c : Cycdata) : Bool :=
  ks.any fun k => (c.method k).isSome && (r k).ret < 0

/-- One tick of one module on its own. -/
def moduleTick (r : Nat → Addr → Method → Ans) (a : Addr) (who : Nat) :
    Option Cycdata → List Event × Option Cycdata
  | none => ([], none)
  | some c =>
    if fires c then
      let p := timeDo (r who a) who a [.seach, .howdo, .send] (c.setLen (tickLen c))
      (p.1, some p.2)
    else ([], some (c.setLen (tickLen c)))

/-- The part of a node that the ticks depend on. -/
def Mem.view (m : Mem) (a : Addr) : Option Cycdata := (m.node a).map Cycdata.core

/-- A change to a node that no method and no tick looks at. -/
structure Unseen (g : Cycdata → Cycdata) : Prop where
  method : ∀ c k, (g c).method k = c.method k
  tidata : ∀ c, (g c).tidata = c.tidata
  setTidata : ∀ c t, g { c with tidata := t } = { g c with tidata := t }

theorem unseen_core : Unseen Cycdata.core := ⟨fun _ k => core_method rfl k, fun _ => rfl, fun _ _ => rfl⟩

theorem obey_next (ans : Ans) (c : Cycdata) : (ans.obey c).next = c.next := by
  unfold Ans.obey
  cases ans.tidata <;> rfl

theorem obey_method (ans : Ans) (c : Cycdata) (k : Method) : (ans.obey c).method k = c.method k := by
  unfold Ans.obey
  cases ans.tidata <;> cases k <;> rfl

theorem Unseen.obey {g : Cycdata → Cycdata} (hg : Unseen g) (ans : Ans) (c : Cycdata) :
    ans.obey (g c) = g (ans.obey c) := by
  unfold Ans.obey
  cases ans.tidata with
  | none => rfl
  | some t => exact (hg.setTidata c t).symm

theorem Unseen.timeDo {g : Cycdata → Cycdata} (hg : Unseen g) (r : Method → Ans) (who : Nat) (a : Addr)
    (ks : List Method) (c : Cycdata) :
    timeDo r who a ks (g c) = ((timeDo r who a ks c).1, g (timeDo r who a ks c).2) := by
  induction ks generalizing c with
  | nil => rfl
  | cons k ks ih =>
    simp only [TimeTask.timeDo, hg.method, hg.obey, ih]
    split_ifs <;> rfl

theorem fails_cons (r : Method → Ans) (k : Method) (ks : List Method) (c : Cycdata) :
    fails r (k :: ks) c = ((c.method k).isSome && decide ((r k).ret < 0) || fails r ks c) := by
  rw [fails, List.any_cons, fails]

theorem fails_obey (r : Method → Ans) (ks : List Method) (ans : Ans) (c : Cycdata) :
    fails r ks (ans.obey c) = fails r ks c := by
  simp only [fails, obey_method]

theorem Unseen.fails {g : Cycdata → Cycdata} (hg : Unseen g) (r : Method → Ans) (ks : List Method) (c : Cycdata) :
    fails r ks (g c) = fails r ks c := by
  simp only [TimeTask.fails, hg.method]

theorem timeDo_next (r : Method → Ans) (who : Nat) (a : Addr) (ks : List Method) (c : Cycdata) :
    (timeDo r who a ks c).2.next = c.next := by
  induction ks generalizing c with
  | nil => rfl
  | cons k ks ih =>
    simp only [timeDo]
    split_ifs
    · exact ih c
    · exact obey_next _ c
    · exact (ih _).trans (obey_next _ c)

theorem timeDo_owned (r : Method → Ans) (who : Nat) (a : Addr) (ks : List Method) (c : Cycdata) :
    ∀ e ∈ (timeDo r who a ks c).1, ∀ b, Event.ofModule b e = true ↔ a = b := by
  induction ks generalizing c with
  | nil => exact fun e he => absurd he List.not_mem_nil
  | cons k ks ih =>
    intro e he b
    simp only [timeDo] at he
    split_ifs at he
    · exact ih c e he b
    · simp only [List.mem_cons, List.not_mem_nil, or_false] at he
      obtain rfl | rfl := he <;> simp [Event.ofModule]
    · obtain rfl | rfl | he : e = _ ∨ e = _ ∨ e ∈ _ := by simpa only [List.mem_cons] using he
      · simp [Event.ofModule]
      · simp [Event.ofModule]
      · exact ih _ e he b

theorem Unseen.moduleTick {g : Cycdata → Cycdata} (hg : Unseen g) (r : Nat → Addr → Method → Ans)
    (a : Addr) (who : Nat) (s : Option Cycdata) :
    moduleTick r a who (s.map g) = ((moduleTick r a who s).1, (moduleTick r a who s).2.map g) := by
  cases s with
  | none => rfl
  | some c =>
    have hf : fires (g c) = fires c := by simp only [fires, hg.tidata]
    have hlen : (g c).setLen (tickLen (g c)) = g (c.setLen (tickLen c)) := by
      have hv : tickLen (g c) = tickLen c := by simp only [tickLen, hg.tidata]
      rw [hv, Cycdata.setLen, hg.tidata]
      exact (hg.setTidata c _).symm
    simp only [Option.map_some, TimeTask.moduleTick, hf, hlen, hg.timeDo]
    split_ifs <;> rfl

theorem moduleTick_owned (r : Nat → Addr → Method → Ans) (a b : Addr) (who : Nat) (s : Option Cycdata) :
    ∀ e ∈ (moduleTick r b who s).1, Event.ofModule a e = true ↔ b = a := by
  intro e he
  cases s with
  | none => cases he
  | some c =>
    simp only [moduleTick] at he
    split_ifs at he
    · exact timeDo_owned _ _ _ _ _ e he a
    · cases he

theorem moduleTick_next (r : Nat → Addr → Method → Ans) (a : Addr) (who : Nat) (s : Option Cycdata) :
    (moduleTick r a who s).2.map Cycdata.next = s.map Cycdata.next := by
  cases s with
  | none => rfl
  | some c =>
    simp only [moduleTick]
    split_ifs
    · exact congrArg some (timeDo_next _ _ _ _ _)
    · rfl

theorem nxt_view (m : Mem) (a : Addr) : m.nxt a = (m.view a).map Cycdata.next := by
  rw [Mem.view, Option.map_map]
  rfl

/-- Only the node `a` has moved, to `d`; logs apart. -/
structure Moved (m : Mem) (a : Addr) (d : Cycdata) (m' : Mem) : Prop where
  self : ∃ c, m'.node a = some c ∧ c.core = d.core
  other : ∀ b, b ≠ a → m'.view b = m.view b
  head : m'.cychead = m.cychead
  signals : m'.signals = m.signals

theorem Moved.trans {m n p : Mem} {a : Addr} {d e : Cycdata} (h : Moved m a d n) (k : Moved n a e p) :
    Moved m a e p :=
  ⟨k.self, fun b hb => (k.other b hb).trans (h.other b hb), k.head.trans h.head, k.signals.trans h.signals⟩

theorem Moved.of_eq {m m' : Mem} {a : Addr} {c : Cycdata} (hc : m.node a = some c)
    (h : Same m m') : Moved m a c m' :=
  ⟨h.cell hc, fun b _ => h.node b, h.head, h.signals⟩

theorem Moved.setLen {m m' : Mem} {a : Addr} {c : Cycdata} {v : Int} (hc : m.node a = some c)
    (h : Same (m.setLen a v) m') : Moved m a (c.setLen v) m' := by
  refine ⟨h.cell ?_, fun b hb => (h.node b).trans ?_, h.head, h.signals⟩
  · rw [Mem.setLen, Mem.node_update_self, hc]
    rfl
  · rw [Mem.setLen, Mem.node_update_ne m _ hb]
    rfl

theorem moved_methodRet (who : Nat) (k : Method) (ans : Ans) {a : Addr} {c : Cycdata} {m : Mem}
    (hc : m.node a = some c) : Moved m a (ans.obey c) (m.methodRet who a k ans) := by
  have hm : ∀ n : Mem, (∃ d, n.node a = some d ∧ d.core = (ans.obey c).core) →
      (∀ b, b ≠ a → n.node b = m.node b) → n.cychead = m.cychead → n.signals = m.signals →
      Moved m a (ans.obey c) n :=
    fun n hs ho hh hg => ⟨hs, fun b hb => congrArg _ (ho b hb), hh, hg⟩
  have hu : ∀ (n : Mem) (d : Cycdata) (g : Cycdata → Cycdata), n.node a = some d →
      (n.update a g).node a = some (g d) := by
    intro n d g hd
    rw [Mem.node_update_self, hd]
    rfl
  have he : (m.emit [.ret who a k ans.ret]).node a = some c := hc
  simp only [Mem.methodRet, Ans.obey] at hm ⊢
  cases ht : ans.tidata with
  | none =>
    simp only [ht] at hm ⊢
    cases ans.openLog with
    | false => exact hm _ ⟨c, he, rfl⟩ (fun _ _ => rfl) rfl rfl
    | true => exact hm _ ⟨_, hu _ _ _ he, rfl⟩ (fun b hb => Mem.node_update_ne _ _ hb) rfl rfl
  | some t =>
    simp only [ht] at hm ⊢
    cases ans.openLog with
    | false => exact hm _ ⟨_, hu _ _ _ he, rfl⟩ (fun b hb => Mem.node_update_ne _ _ hb) rfl rfl
    | true =>
      refine hm _ ⟨_, hu _ _ _ (hu _ _ _ he), rfl⟩ (fun b hb => ?_) rfl rfl
      exact (Mem.node_update_ne _ _ hb).trans (Mem.node_update_ne _ _ hb)

/-- The nodes of `l` had their turn, in which each goes by `f`, and nothing else has moved. -/
structure Turned (f : Addr → Option Cycdata → List Event × Option Cycdata) (m : Mem) (l : List Addr) (m' : Mem) :
    Prop where
  view : ∀ b, m'.view b = if b ∈ l then (f b (m.view b)).2 else m.view b
  head : m'.cychead = m.cychead
  signals : m'.signals = m.signals
  trace : m'.methodTrace = m.methodTrace ++ l.flatMap fun b => (f b (m.view b)).1

section Turned
variable {f : Addr → Option Cycdata → List Event × Option Cycdata}

theorem Turned.trans {m n p : Mem} {k l : List Addr} (h : Turned f m k n) (g : Turned f n l p)
    (hd : ∀ b ∈ l, b ∉ k) : Turned f m (k ++ l) p := by
  have hold : ∀ b ∈ l, n.view b = m.view b := fun b hb => (h.view b).trans (if_neg (hd b hb))
  refine ⟨fun b => ?_, g.head.trans h.head, g.signals.trans h.signals, ?_⟩
  · rw [g.view b]
    by_cases hl : b ∈ l
    · rw [if_pos hl, if_pos (List.mem_append_right k hl), hold b hl]
    · rw [if_neg hl, h.view b]
      by_cases hk : b ∈ k
      · rw [if_pos hk, if_pos (List.mem_append_left l hk)]
      · rw [if_neg hk, if_neg fun hb => (List.mem_append.mp hb).elim hk hl]
  · have hsame : (l.flatMap fun b => (f b (n.view b)).1) = l.flatMap fun b => (f b (m.view b)).1 :=
      List.flatMap_congr fun b hb => by rw [hold b hb]
    rw [g.trace, h.trace, hsame, List.flatMap_append, List.append_assoc]

theorem Turned.nxt {m m' : Mem} {l : List Addr} (h : Turned f m l m')
    (hf : ∀ b s, (f b s).2.map Cycdata.next = s.map Cycdata.next) : m'.nxt = m.nxt := by
  funext b
  rw [nxt_view, nxt_view, h.view b]
  split_ifs
  · exact hf b (m.view b)
  · rfl

theorem Turned.one {a : Addr} {c d : Cycdata} {es : List Event} {m m' : Mem} (hc : m.node a = some c)
    (hm : Moved m a d m') (ht : m'.methodTrace = m.methodTrace ++ es) (hf : f a (some c.core) = (es, some d.core)) :
    Turned f m [a] m' := by
  have hview : m.view a = some c.core := by rw [Mem.view, hc, Option.map_some]
  rw [← hview] at hf
  refine ⟨fun b => ?_, hm.head, hm.signals, ?_⟩
  · by_cases hb : b = a
    · obtain ⟨e, he, hcore⟩ := hm.self
      rw [hb, if_pos (List.mem_singleton_self a), hf, Mem.view, he, Option.map_some, hcore]
    · rw [if_neg (by simpa using hb)]
      exact hm.other b hb
  · rw [ht, List.flatMap_singleton, hf]

end Turned

section Run
variable (dirch : List Byte) (r : Nat → Addr → Method → Ans)

abbrev moduleBody : Frame × Mem → Pass (Frame × Mem) (Bool × Mem) := (daemon dirch).soloBody (replies r)

/-- The calls of a module, written for TimeDo and for TimeInit: `at_ ks` calls the methods `ks`,
`wait k ks` is in `k` before them, and the first that fails leads to `failed`. -/
structure Calls (who : Nat) (a : Addr) (at_ : List Method → Frame) (wait : Method → List Method → Frame)
    (failed : Frame) (seen : List Event) : Prop where
  call : ∀ k ks m c, m.node a = some c → moduleBody dirch r (at_ (k :: ks), m) =
    if c.method k = none then .again (at_ ks, m.emit seen)
    else .again (wait k ks, (m.emit seen).emit [.call who a k])
  ret : ∀ k ks m, moduleBody dirch r (wait k ks, m) =
    if (r who a k).ret < 0 then .again (failed, m.methodRet who a k (r who a k))
    else .again (at_ ks, m.methodRet who a k (r who a k))
  silent : ∀ e ∈ seen, e.isMethod = false

/-- The methods are called up to the first failure; each of them sees the node that the ones
before it left. -/
theorem calls_goes {who : Nat} {a : Addr} {at_ : List Method → Frame} {wait : Method → List Method → Frame}
    {failed : Frame} {seen : List Event} (h : Calls dirch r who a at_ wait failed seen) (ks : List Method)
    {c : Cycdata} {m : Mem} (hc : m.node a = some c) :
    ∃ m', Goes (moduleBody dirch r) (at_ ks, m) (if fails (r who a) ks c then failed else at_ [], m') ∧
      Moved m a (timeDo (r who a) who a ks c).2 m' ∧
      m'.methodTrace = m.methodTrace ++ (timeDo (r who a) who a ks c).1 := by
  induction ks generalizing c m with
  | nil => exact ⟨m, Goes.refl _, Moved.of_eq hc (Same.refl m), (List.append_nil _).symm⟩
  | cons k ks ih =>
    let m₁ := m.emit seen
    have hc₁ : m₁.node a = some c := hc
    have ht₁ : m₁.methodTrace = m.methodTrace := by
      have hnone : seen.filter Event.isMethod = [] := List.filter_eq_nil_iff.mpr fun e he => by simp [h.silent e he]
      rw [methodTrace_emit, hnone, List.append_nil]
    have hcall := h.call k ks m c hc
    by_cases hk : c.method k = none
    · rw [if_pos hk] at hcall
      obtain ⟨m', hg, hm, ht⟩ := ih hc₁
      refine ⟨m', ?_, ?_, ?_⟩
      · rw [fails_cons, hk]
        exact (Goes.one hcall).trans hg
      · rw [timeDo, if_pos hk]
        exact (Moved.of_eq hc (Same.emit m _)).trans hm
      · rw [timeDo, if_pos hk, ht, ht₁]
    · rw [if_neg hk] at hcall
      let m₂ := m₁.emit [.call who a k]
      let m₃ := m₂.methodRet who a k (r who a k)
      have hret := h.ret k ks m₂
      have hm₃ : Moved m a ((r who a k).obey c) m₃ :=
        (Moved.of_eq hc ((Same.emit m _).trans (Same.emit _ _))).trans
          (moved_methodRet who k (r who a k) (show m₂.node a = some c from hc))
      have ht₃ : m₃.methodTrace =
          m.methodTrace ++ [.call who a k, .ret who a k (r who a k).ret] := by
        rw [methodTrace_methodRet, methodTrace_emit, ht₁, List.append_assoc]
        rfl
      by_cases hr : (r who a k).ret < 0
      · rw [if_pos hr] at hret
        refine ⟨m₃, ?_, ?_, ?_⟩
        · rw [fails_cons, if_pos (by simp [Option.isSome_iff_ne_none.mpr hk, hr])]
          exact (Goes.one hcall).trans (Goes.one hret)
        · rw [timeDo, if_neg hk, if_pos hr]
          exact hm₃
        · rw [timeDo, if_neg hk, if_pos hr, ht₃]
      · rw [if_neg hr] at hret
        obtain ⟨d, hd, hcore⟩ := hm₃.self
        obtain ⟨m', hg, hm, ht⟩ := ih hd
        -- the node differs from the automaton's by its log alone
        have hdo := unseen_core.timeDo (r who a) who a ks d
        rw [hcore, unseen_core.timeDo] at hdo
        obtain ⟨hes, hlast⟩ := Prod.mk.inj hdo
        have hfail : fails (r who a) ks d = fails (r who a) (k :: ks) c := by
          rw [fails_cons, ← unseen_core.fails, hcore, unseen_core.fails, fails_obey]
          simp [hr]
        refine ⟨m', ?_, ?_, ?_⟩
        · rw [← hfail]
          exact ((Goes.one hcall).trans (Goes.one hret)).trans hg
        · rw [timeDo, if_neg hk, if_neg hr]
          obtain ⟨e, he, hec⟩ := hm.self
          exact hm₃.trans ⟨⟨e, he, hec.trans hlast.symm⟩, hm.other, hm.head, hm.signals⟩
        · rw [timeDo, if_neg hk, if_neg hr, ht, ht₃, ← hes, List.append_assoc]
          rfl

theorem timeDo_calls (who : Nat) (a : Addr) :
    Calls dirch r who a (fun ks => .tick who (.method a ks)) (fun k ks => .tick who (.wait a k ks))
      (.tick who (.next a)) [.access who a] := by
  refine ⟨fun k ks m c hc => ?_, fun k ks m => ?_, by simp [Event.isMethod]⟩
  · have hc₁ : (m.emit [.access who a]).node a = some c := hc
    simp only [Machine.soloBody, daemon, tickStep, touch, hc₁]
    split_ifs <;> rfl
  · simp only [Machine.soloBody, daemon, tickStep, replies]
    split_ifs <;> rfl

theorem timeDo_goes (who : Nat) (a : Addr) (ks : List Method) {c : Cycdata} {m : Mem}
    (hc : m.node a = some c) :
    ∃ m', Goes (moduleBody dirch r) (.tick who (.method a ks), m) (.tick who (.next a), m') ∧
      Moved m a (timeDo (r who a) who a ks c).2 m' ∧
      m'.methodTrace = m.methodTrace ++ (timeDo (r who a) who a ks c).1 := by
  obtain ⟨m', hg, hm, ht⟩ := calls_goes dirch r (timeDo_calls dirch r who a) ks hc
  refine ⟨m', ?_, hm, ht⟩
  cases hf : fails (r who a) ks c with
  | true =>
    rw [hf] at hg
    exact hg
  | false =>
    rw [hf] at hg
    exact hg.trans (Goes.one rfl)

/-- What the handler does to one node is the tick of that module. -/
theorem module_goes (who : Nat) {a : Addr} {c : Cycdata} {m : Mem} (hc : m.node a = some c) :
    ∃ m', Goes (moduleBody dirch r) (.tick who (.period a), m) (.tick who (.next a), m') ∧
      Turned (fun b => moduleTick r b who) m [a] m' := by
  have hset : c.core.setLen (tickLen c.core) = (c.setLen (tickLen c)).core := rfl
  by_cases hp : c.tidata.key.len ≥ 0
  · obtain ⟨m₁, hg, hs, ht⟩ := counter_run dirch (replies r) who hc hp
    have hm := Moved.setLen hc hs
    by_cases hf : fires c = true
    · rw [if_pos hf] at hg
      obtain ⟨d, hd, hcore⟩ := hm.self
      obtain ⟨m', hg', hm', ht'⟩ := timeDo_goes dirch r who a [.seach, .howdo, .send] hd
      refine ⟨m', hg.trans hg', Turned.one hc (hm.trans hm') (by rw [ht', ht]) ?_⟩
      rw [moduleTick, if_pos (show fires c.core = true from hf), hset, ← hcore]
      simp only [unseen_core.timeDo]
    · rw [if_neg hf] at hg
      refine ⟨m₁, hg, Turned.one hc hm (by rw [ht, List.append_nil]) ?_⟩
      rw [moduleTick, if_neg (show ¬ fires c.core = true from hf), hset]
  · have h1 := period_step dirch (replies r) who hc
    rw [if_neg hp] at h1
    have hlen : tickLen c = c.tidata.value.len := by simp [tickLen, hp]
    have hf : ¬ fires c = true := by simp [fires, hp]
    refine ⟨m.emit [.access who a], Goes.one h1,
      Turned.one hc (Moved.of_eq hc (Same.emit m _)) (show _ = m.methodTrace ++ [] from ?_) ?_⟩
    · simp [methodTrace_emit, Event.isMethod]
    · rw [moduleTick, if_neg (show ¬ fires c.core = true from hf), hset, hlen]
      rfl

/-- The walk over the list gives every module its tick. -/
theorem modules_leave (who : Nat) (l : List Addr) {a : Addr} {m : Mem}
    (h : Chain m.nxt (some a) (a :: l)) :
    ∃ m', Leaves (moduleBody dirch r) (.tick who (.period a), m) (true, m') ∧ Turned (fun b => moduleTick r b who) m (a :: l) m' := by
  induction l generalizing a m with
  | nil =>
    obtain ⟨_, s, hs, hl⟩ := h
    obtain ⟨c, hc, hnext⟩ := Option.map_eq_some_iff.mp hs
    obtain ⟨m₁, hg, ht⟩ := module_goes dirch r who hc
    obtain ⟨d, hd, hdn⟩ := Option.map_eq_some_iff.mp (show m₁.nxt a = some s by rw [ht.nxt fun b => moduleTick_next r b who, hs])
    have hn : d.next = none := hdn.trans hl
    have hstep := next_step dirch (replies r) who hd
    rw [hn] at hstep
    refine ⟨m₁.emit [.access who a], Leaves.of_goes hg (Leaves.now hstep), ht.view, ht.head, ht.signals, ?_⟩
    rw [← ht.trace]
    exact methodTrace_access m₁ [who] a
  | cons b l ih =>
    have ha : a ∉ b :: l := (List.nodup_cons.mp (chain_nodup h)).1
    obtain ⟨_, s, hs, hl⟩ := h
    obtain ⟨c, hc, hnext⟩ := Option.map_eq_some_iff.mp hs
    obtain ⟨m₁, hg, ht⟩ := module_goes dirch r who hc
    obtain ⟨d, hd, hdn⟩ := Option.map_eq_some_iff.mp (show m₁.nxt a = some s by rw [ht.nxt fun b => moduleTick_next r b who, hs])
    have hn : d.next = some b := hdn.trans hl.1
    have hstep := next_step dirch (replies r) who hd
    rw [hn] at hstep
    let m₂ := m₁.emit [.access who a]
    have ht₂ : Turned (fun b => moduleTick r b who) m [a] m₂ :=
      ⟨ht.view, ht.head, ht.signals, (methodTrace_access m₁ [who] a).trans ht.trace⟩
    have hl₂ : Chain m₂.nxt (some b) (b :: l) := by
      rw [ht₂.nxt fun b => moduleTick_next r b who, ← hl.1]
      exact hl
    obtain ⟨m', hrun, hrest⟩ := ih hl₂
    refine ⟨m', Leaves.of_goes (hg.trans (Goes.one hstep)) hrun, ht₂.trans hrest fun x hx hxa => ?_⟩
    rw [List.mem_singleton.mp hxa] at hx
    exact ha hx

/-- One delivery of the timer signal gives every module its tick. -/
theorem round_leaves {mods : List Addr} {m : Mem} (h : m.ListIs mods) :
    ∃ m', Leaves (moduleBody dirch r) ((daemon dirch).enter .alarm m) (true, m') ∧
      Turned (fun b => moduleTick r b (m.signals + 1)) { m with signals := m.signals + 1 } mods m' := by
  cases mods with
  | nil =>
    have hn : m.cychead = none := h
    refine ⟨{ m with signals := m.signals + 1 }, Leaves.now ?_, fun b => rfl, rfl, rfl, ?_⟩
    · simp only [Machine.soloBody, daemon, tickStep, hn]
    · exact (List.append_nil _).symm
  | cons a l =>
    have ha : m.cychead = some a := h.1
    have hw : Chain ({ m with signals := m.signals + 1 } : Mem).nxt (some a) (a :: l) := ha ▸ h
    obtain ⟨m', hrun, ht⟩ := modules_leave dirch r (m.signals + 1) l hw
    refine ⟨m', Leaves.step ?_ hrun, ht⟩
    simp only [Machine.soloBody, daemon, tickStep, ha]

end Run

/-- A module as an automaton: its ticks from signal number `s` on. -/
def moduleRun (r : Nat → Addr → Method → Ans) (s : Nat) (a : Addr) (i : Nat) :
    Option Cycdata → List Event × Option Cycdata := moduleTick r a (s + i + 1)

/-- The memory after `n` ticks is the product of what each module has become. -/
structure Product (r : Nat → Addr → Method → Ans) (m : Mem) (mods : List Addr) (n : Nat) (m' : Mem) :
    Prop where
  list : m'.ListIs mods
  signals : m'.signals = m.signals + n
  view : ∀ b, m'.view b =
    if b ∈ mods then after (moduleRun r m.signals b) (m.view b) n else m.view b
  trace : m'.methodTrace = m.methodTrace ++ rounds (moduleRun r m.signals) m.view mods n

theorem Product.tick {r : Nat → Addr → Method → Ans} {m m₁ m₂ : Mem} {mods : List Addr} {n : Nat}
    (h : Product r m mods n m₁)
    (ht : Turned (fun b => moduleTick r b (m₁.signals + 1)) { m₁ with signals := m₁.signals + 1 } mods m₂) :
    Product r m mods (n + 1) m₂ := by
  have hview : ∀ b, ({ m₁ with signals := m₁.signals + 1 } : Mem).view b = m₁.view b := fun b => rfl
  have hrun : ∀ b ∈ mods, moduleTick r b (m₁.signals + 1) (m₁.view b) =
      moduleRun r m.signals b n (after (moduleRun r m.signals b) (m.view b) n) := by
    intro b hb
    rw [h.view b, if_pos hb, h.signals, moduleRun]
  refine ⟨?_, ?_, fun b => ?_, ?_⟩
  · rw [Mem.ListIs, ht.nxt fun b => moduleTick_next r b _, ht.head]
    exact h.list
  · rw [ht.signals]
    exact congrArg (· + 1) h.signals
  · rw [ht.view b, hview]
    by_cases hb : b ∈ mods
    · rw [if_pos hb, if_pos hb, hrun b hb, after]
    · rw [if_neg hb, if_neg hb, h.view b, if_neg hb]
  · have hshown : (mods.flatMap fun b => (moduleTick r b (m₁.signals + 1) (m₁.view b)).1) =
        mods.flatMap fun b => shown (moduleRun r m.signals b) (m.view b) n :=
      List.flatMap_congr fun b hb => by rw [hrun b hb, shown]
    have htrace := ht.trace
    simp only [hview, hshown] at htrace
    rw [htrace, rounds_succ, ← List.append_assoc, ← h.trace]
    rfl

theorem product_run (dirch : List Byte) (r : Nat → Addr → Method → Ans) {m : Mem} {mods : List Addr}
    (h : m.ListIs mods) (n : Nat) :
    ∃ m', Ticks dirch (replies r) n m m' ∧ Product r m mods n m' := by
  induction n with
  | zero =>
    refine ⟨m, Ticks.zero m, h, rfl, fun b => ?_, by simp [rounds]⟩
    split_ifs <;> rfl
  | succ n ih =>
    obtain ⟨m₁, hrun, hp⟩ := ih
    obtain ⟨m₂, hleave, ht⟩ := round_leaves dirch r hp.list
    exact ⟨m₂, Ticks.succ hrun hleave, hp.tick ht⟩

theorem Ticks.product {dirch : List Byte} {r : Nat → Addr → Method → Ans} {m m' : Mem} {n : Nat}
    (ht : Ticks dirch (replies r) n m m') {mods : List Addr} (h : m.ListIs mods) :
    Product r m mods n m' := by
  obtain ⟨p, hp, hprod⟩ := product_run dirch r h n
  rw [ht.unique hp]
  exact hprod

/-- Whatever the modules answer and whatever periods they set, `n` ticks return, and what they
show is what the automata of the modules show when each takes its turn in the order of the list:
each is at the state it comes to on its own, and no other node has moved. -/
theorem ticks_product (dirch : List Byte) (r : Nat → Addr → Method → Ans) (m : Mem) (mods : List Addr)
    (h : m.ListIs mods) (n : Nat) :
    (∃ m', Ticks dirch (replies r) n m m') ∧
    ∀ m', Ticks dirch (replies r) n m m' →
      m'.ListIs mods ∧
      m'.methodTrace = m.methodTrace ++ rounds (moduleRun r m.signals) m.view mods n ∧
      (∀ a ∈ mods, m'.view a = after (moduleRun r m.signals a) (m.view a) n) ∧
      ∀ b, b ∉ mods → m'.view b = m.view b := by
  obtain ⟨m', hrun, _⟩ := product_run dirch r h n
  refine ⟨⟨m', hrun⟩, fun m' hm' => ?_⟩
  have hp := hm'.product h
  exact ⟨hp.list, hp.trace, fun a ha => (hp.view a).trans (if_pos ha),
    fun b hb => (hp.view b).trans (if_neg hb)⟩

def hastens : Nat → Addr → Method → Ans := fun _ a k =>
  ⟨0, if a = 1 ∧ k = .seach then some ⟨⟨none, 0⟩, ⟨none, 0⟩⟩ else none, false, none, none, false, none, false⟩

theorem clocked_list : clocked.ListIs [0, 1] := ⟨rfl, some 1, rfl, rfl, none, rfl, rfl⟩

theorem ticks_product_two :
    ∃ m', Ticks [] (replies hastens) 3 clocked m' ∧ m'.methodTrace.filter (Event.ofModule 1) =
      [.call 2 1 .seach, .ret 2 1 .seach 0, .call 2 1 .send, .ret 2 1 .send 0,
        .call 3 1 .seach, .ret 3 1 .seach 0, .call 3 1 .send, .ret 3 1 .send 0] := by
  obtain ⟨⟨m', hm'⟩, hall⟩ := ticks_product [] hastens clocked [0, 1] clocked_list 3
  refine ⟨m', hm', ?_⟩
  rw [(hall m' hm').2.1]
  rfl

/-- The part of a node that is the module's own: neither its log nor its place in the list. -/
def Cycdata.own (c : Cycdata) : Cycdata := { c with ld := none, next := none }

theorem unseen_own : Unseen Cycdata.own := by
  refine ⟨fun c k => ?_, fun _ => rfl, fun _ _ => rfl⟩
  cases k <;> rfl

theorem Ticks.ofModule {dirch : List Byte} {r : Nat → Addr → Method → Ans} {m m' : Mem} {n : Nat}
    (ht : Ticks dirch (replies r) n m m') {mods : List Addr} (h : m.ListIs mods) {a : Addr} (ha : a ∈ mods) :
    m'.methodTrace.filter (Event.ofModule a) = m.methodTrace.filter (Event.ofModule a) ++
      (List.range n).flatMap fun i => shown (moduleRun r m.signals a) (m.view a) i := by
  have hown : ∀ x b i s, ∀ e ∈ (moduleRun r m.signals b i s).1, Event.ofModule x e = true ↔ b = x :=
    fun x b i s => moduleTick_owned r x b (m.signals + i + 1) s
  rw [(ht.product h).trace, List.filter_append, filter_rounds hown m.view (chain_nodup h) ha]

/-- Two daemons with nothing in common but one module, its answers and the number of ticks so far
call that module alike and leave it alike: other modules, their answers and the order of the
list do not reach it. -/
theorem module_isolated (dirch dirch' : List Byte) (r r' : Nat → Addr → Method → Ans) (m n : Mem)
    (mods mods' : List Addr) (hm : m.ListIs mods) (hn : n.ListIs mods') (a : Addr) (ha : a ∈ mods)
    (ha' : a ∈ mods') (hown : (m.node a).map Cycdata.own = (n.node a).map Cycdata.own)
    (hs : m.signals = n.signals) (hr : ∀ who k, r who a k = r' who a k) (t : Nat) (m' n' : Mem)
    (hm' : Ticks dirch (replies r) t m m') (hn' : Ticks dirch' (replies r') t n n') :
    (m'.node a).map Cycdata.own = (n'.node a).map Cycdata.own ∧
      ∃ es, m'.methodTrace.filter (Event.ofModule a) = m.methodTrace.filter (Event.ofModule a) ++ es ∧
        n'.methodTrace.filter (Event.ofModule a) = n.methodTrace.filter (Event.ofModule a) ++ es := by
  have hview : ∀ p : Mem, (p.view a).map Cycdata.own = (p.node a).map Cycdata.own := by
    intro p
    rw [Mem.view, Option.map_map]
    rfl
  have hstart : (m.view a).map Cycdata.own = (n.view a).map Cycdata.own := by rw [hview, hview, hown]
  have hrun : ∀ i s, moduleRun r m.signals a i s = moduleRun r' n.signals a i s := by
    intro i s
    have hra : ∀ who, r who a = r' who a := fun who => funext (hr who)
    rw [moduleRun, moduleRun, hs]
    cases s with
    | none => rfl
    | some c => simp only [moduleTick, hra]
  have hblind : ∀ i s, moduleRun r' n.signals a i (s.map Cycdata.own) =
      ((moduleRun r' n.signals a i s).1, (moduleRun r' n.signals a i s).2.map Cycdata.own) :=
    fun i s => unseen_own.moduleTick r' a (n.signals + i + 1) s
  constructor
  · have hp := (hm'.product hm).view a
    have hq := (hn'.product hn).view a
    rw [if_pos ha] at hp
    rw [if_pos ha'] at hq
    calc (m'.node a).map Cycdata.own
        = (after (moduleRun r m.signals a) (m.view a) t).map Cycdata.own := by rw [← hview, hp]
      _ = after (moduleRun r' n.signals a) ((m.view a).map Cycdata.own) t := by
          rw [after_congr hrun, after_map hblind]
      _ = (after (moduleRun r' n.signals a) (n.view a) t).map Cycdata.own := by
          rw [hstart, after_map hblind]
      _ = (n'.node a).map Cycdata.own := by rw [← hq, hview]
  · refine ⟨_, hm'.ofModule hm ha, ?_⟩
    rw [hn'.ofModule hn ha']
    congr 1
    refine List.flatMap_congr fun i _ => ?_
    rw [shown_congr hrun, ← shown_map hblind (m.view a), hstart, shown_map hblind]

def alone : Mem := { clocked with cychead := some 1 }

theorem module_isolated_alone :
    ∃ m' n', Ticks [] (replies hastens) 3 clocked m' ∧ Ticks [] (replies hastens) 3 alone n' ∧
      m'.methodTrace.filter (Event.ofModule 1) = n'.methodTrace.filter (Event.ofModule 1) := by
  have hn : alone.ListIs [1] := ⟨rfl, none, rfl, rfl⟩
  obtain ⟨m', hm', _⟩ := product_run [] hastens clocked_list 3
  obtain ⟨n', hn', _⟩ := product_run [] hastens hn 3
  obtain ⟨_, es, hes, hes'⟩ := module_isolated [] [] hastens hastens clocked alone [0, 1] [1] clocked_list
    hn 1 (by simp) (by simp) rfl rfl (fun _ _ => rfl) 3 m' n' hm' hn'
  exact ⟨m', n', hm', hn', hes.trans hes'.symm⟩

theorem toInt_small {x : Int} (hlo : -2 ^ 31 ≤ x) (hhi : x < 2 ^ 31) : toInt x = x := by
  rw [toInt, Int.bmod_eq_of_le] <;> omega

/-- A module with an enabled counter is silent until the counter has passed the period. -/
theorem waits {r : Nat → Addr → Method → Ans} {s : Nat} {a : Addr} {c : Cycdata}
    (hlo : -2 ^ 31 ≤ c.tidata.value.len) (hP : c.tidata.key.len < 2 ^ 31 - 1) (h0 : 0 ≤ c.tidata.key.len)
    {n : Nat} (hn : n ≤ (c.tidata.key.len - c.tidata.value.len).toNat) :
    after (moduleRun r s a) (some c) n = some (c.setLen (c.tidata.value.len + n)) ∧
      ∀ i < n, shown (moduleRun r s a) (some c) i = [] := by
  refine after_silent (t := fun i => some (c.setLen (c.tidata.value.len + i))) ?_ fun i hi => ?_
  · simp [Cycdata.setLen]
  · have hint : toInt (c.tidata.value.len + i + 1) = c.tidata.value.len + i + 1 :=
      toInt_small (by omega) (by omega)
    have hnot : ¬ c.tidata.key.len < c.tidata.value.len + i + 1 := by omega
    have hf : fires (c.setLen (c.tidata.value.len + i)) = false := by
      simp only [fires, Cycdata.setLen, hint, h0, hnot, and_false, decide_false]
    have hlen : tickLen (c.setLen (c.tidata.value.len + i)) = c.tidata.value.len + (i + 1 : Nat) := by
      simp only [tickLen, Cycdata.setLen, hint, ge_iff_le, h0, if_true, if_neg hnot]
      omega
    simp only [moduleRun, moduleTick, hf, hlen]
    rfl

theorem switched_off {r : Nat → Addr → Method → Ans} {s : Nat} {a : Addr} {c : Cycdata}
    (h0 : c.tidata.key.len < 0) (n : Nat) :
    after (moduleRun r s a) (some c) n = some c ∧ ∀ i < n, shown (moduleRun r s a) (some c) i = [] := by
  refine after_silent (t := fun _ => some c) rfl fun i _ => ?_
  have hnot : ¬ c.tidata.key.len ≥ 0 := by omega
  have hf : fires c = false := by simp only [fires, hnot, false_and, decide_false]
  have hlen : tickLen c = c.tidata.value.len := by rw [tickLen, if_neg hnot]
  simp only [moduleRun, moduleTick, hf, hlen]
  rfl

/-- The next call of a module, from any counter and in any company. A module whose period `P` is
not negative and whose counter is at `v` is left alone for the next `P - v` ticks, and in the tick
after those its methods run on a counter of 0; a module with a negative period is left alone for
good. -/
theorem next_call (dirch : List Byte) (r : Nat → Addr → Method → Ans) (m : Mem) (mods : List Addr)
    (h : m.ListIs mods) (a : Addr) (ha : a ∈ mods) (c : Cycdata) (hc : m.node a = some c)
    (hlo : -2 ^ 31 ≤ c.tidata.value.len) (hP : c.tidata.key.len < 2 ^ 31 - 1) (n : Nat) (m' : Mem)
    (ht : Ticks dirch (replies r) n m m') :
    (c.tidata.key.len < 0 ∨ n ≤ (c.tidata.key.len - c.tidata.value.len).toNat →
      m'.methodTrace.filter (Event.ofModule a) = m.methodTrace.filter (Event.ofModule a)) ∧
    (0 ≤ c.tidata.key.len → c.tidata.value.len < 2 ^ 31 - 1 →
      n = (c.tidata.key.len - c.tidata.value.len).toNat + 1 →
      m'.methodTrace.filter (Event.ofModule a) = m.methodTrace.filter (Event.ofModule a) ++
          (timeDo (r (m.signals + n) a) (m.signals + n) a [.seach, .howdo, .send] (c.setLen 0)).1 ∧
        (m'.node a).map Cycdata.core =
          some (timeDo (r (m.signals + n) a) (m.signals + n) a [.seach, .howdo, .send] (c.setLen 0)).2.core) := by
  have htrace := ht.ofModule h ha
  have hview := (ht.product h).view a
  have hcore : m.view a = (some c).map Cycdata.core := by rw [Mem.view, hc]
  have hblind : ∀ i s, moduleRun r m.signals a i (s.map Cycdata.core) =
      ((moduleRun r m.signals a i s).1, (moduleRun r m.signals a i s).2.map Cycdata.core) :=
    fun i s => unseen_core.moduleTick r a (m.signals + i + 1) s
  simp only [hcore, shown_map hblind] at htrace
  rw [if_pos ha, hcore, after_map hblind] at hview
  have hquiet : ∀ k, (∀ i < k, shown (moduleRun r m.signals a) (some c) i = []) →
      ((List.range k).flatMap fun i => shown (moduleRun r m.signals a) (some c) i) = [] :=
    fun k hk => List.flatMap_eq_nil_iff.mpr fun i hi => hk i (List.mem_range.mp hi)
  constructor
  · intro hcase
    have hsilent : ∀ i < n, shown (moduleRun r m.signals a) (some c) i = [] := by
      by_cases h0 : c.tidata.key.len < 0
      · exact (switched_off h0 n).2
      · exact (waits hlo hP (by omega) (hcase.resolve_left h0)).2
    rw [htrace, hquiet n hsilent, List.append_nil]
  · intro h0 hhi hn
    obtain ⟨hat, hsilent⟩ := waits (r := r) (s := m.signals) (a := a) hlo hP h0
      (le_refl (c.tidata.key.len - c.tidata.value.len).toNat)
    subst hn
    generalize hd : (c.tidata.key.len - c.tidata.value.len).toNat = d at *
    have hint : toInt (c.tidata.value.len + d + 1) = c.tidata.value.len + d + 1 :=
      toInt_small (by omega) (by omega)
    have hover : c.tidata.key.len < c.tidata.value.len + d + 1 := by omega
    have hf : fires (c.setLen (c.tidata.value.len + d)) = true := by
      simp only [fires, Cycdata.setLen, hint, hover, ge_iff_le, h0, and_self, decide_true]
    have hlen : tickLen (c.setLen (c.tidata.value.len + d)) = 0 := by
      simp only [tickLen, Cycdata.setLen, hint, ge_iff_le, h0, if_true, if_pos hover]
    have hlast : moduleRun r m.signals a d (some (c.setLen (c.tidata.value.len + d))) =
        ((timeDo (r (m.signals + (d + 1)) a) (m.signals + (d + 1)) a [.seach, .howdo, .send] (c.setLen 0)).1,
          some (timeDo (r (m.signals + (d + 1)) a) (m.signals + (d + 1)) a [.seach, .howdo, .send]
            (c.setLen 0)).2) := by
      rw [moduleRun, moduleTick, if_pos hf, hlen]
      rfl
    constructor
    · rw [htrace, List.range_succ, List.flatMap_append, hquiet d hsilent, List.nil_append,
        List.flatMap_singleton, shown, hat, hlast]
    · rw [after, hat, hlast] at hview
      exact hview

theorem next_call_second :
    ∃ m', Ticks [] (replies hastens) 2 clocked m' ∧ m'.methodTrace.filter (Event.ofModule 1) =
      [.call 2 1 .seach, .ret 2 1 .seach 0, .call 2 1 .send, .ret 2 1 .send 0] := by
  obtain ⟨m', hm', _⟩ := product_run [] hastens clocked_list 2
  have hcall := (next_call [] hastens clocked [0, 1] clocked_list 1 (by simp) _ rfl (by decide) (by decide)
    2 m' hm').2 (by decide) (by decide) (by decide)
  refine ⟨m', hm', ?_⟩
  rw [hcall.1]
  rfl

end TimeTask
