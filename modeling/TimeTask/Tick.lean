import Mathlib.Data.Int.ModEq
import TimeTask.Process

/-! The schedule of cycleTimeMethod: any number of undisturbed ticks over a module list. -/
namespace TimeTask
open Lib

def upTo {α : Type*} (p : α → Bool) (l : List α) : List α :=
  l.takeWhile (fun k => !p k) ++ (l.dropWhile fun k => !p k).take 1

theorem upTo_cons {α : Type*} (p : α → Bool) (k : α) (l : List α) :
    upTo p (k :: l) = k :: if p k then [] else upTo p l := by
  cases hp : p k <;> simp [upTo, hp]

def Event.isMethod : Event → Bool
  | .call _ _ _ => true
  | .ret _ _ _ _ => true
  | _ => false

def Event.ofModule (a : Addr) : Event → Bool
  | .call _ b _ => b = a
  | .ret _ b _ _ => b = a
  | _ => false

def Mem.methodTrace (m : Mem) : List Event := m.trace.filter Event.isMethod

def due (P : Int) (t : Nat) : Bool := 0 ≤ P ∧ (P + 1) ∣ (t : Int)

/-- The calls of one module in one tick that reaches it. -/
def turn (ret : Method → Int) (who : Nat) (a : Addr) (c : Cycdata) (ks : List Method) : List Event :=
  (upTo (fun k => ret k < 0) (ks.filter fun k => (c.method k).isSome)).flatMap fun k =>
    [.call who a k, .ret who a k (ret k)]

/-- What tick number `t` after `m` shows of the module `a`. -/
def slot (ret : Nat → Addr → Method → Int) (m : Mem) (t : Nat) (a : Addr) : List Event :=
  match m.node a with
  | none => []
  | some c =>
    if due c.tidata.key.len t then turn (ret (m.signals + t) a) (m.signals + t) a c [.seach, .howdo, .send]
    else []

/-- The reference trace of `n` ticks. -/
def reference (ret : Nat → Addr → Method → Int) (m : Mem) (mods : List Addr) (n : Nat) : List Event :=
  (List.range n).flatMap fun i => mods.flatMap (slot ret m (i + 1))

/-- Modules that answer `ret`, may open a log and leave tidata and next alone. -/
def calm (ret : Nat → Addr → Method → Int) (openLog : Nat → Addr → Method → Bool) : Frame → Ans
  | .tick who (.wait a k _) => ⟨ret who a k, none, openLog who a k, none, none, false, none, false⟩
  | _ => ⟨0, none, false, none, none, false, none, false⟩

/-- `n` successive runs of the handler, each of them to its return. -/
inductive Ticks (dirch : List Byte) (env : Frame → Ans) : Nat → Mem → Mem → Prop
  | zero (m : Mem) : Ticks dirch env 0 m m
  | succ {n : Nat} {m m₁ m₂ : Mem} (h : Ticks dirch env n m m₁)
      (ht : Leaves ((daemon dirch).soloBody env) ((daemon dirch).enter .alarm m₁) (true, m₂)) :
      Ticks dirch env (n + 1) m m₂

theorem Ticks.unique {dirch : List Byte} {env : Frame → Ans} {n : Nat} {m p q : Mem}
    (hp : Ticks dirch env n m p) (hq : Ticks dirch env n m q) : p = q := by
  induction hp generalizing q with
  | zero =>
    cases hq with
    | zero => rfl
  | succ h ht ih =>
    cases hq with
    | succ k kt =>
      have he := ih k
      subst he
      have hr := Leaves.unique ht kt
      simpa using hr

/-- The part of a node that a tick depends on. -/
def Cycdata.core (c : Cycdata) : Cycdata := { c with ld := none }

/-- Two memories that differ in logs and module logs only. -/
structure Same (m m' : Mem) : Prop where
  node : ∀ b, (m'.node b).map Cycdata.core = (m.node b).map Cycdata.core
  head : m'.cychead = m.cychead
  signals : m'.signals = m.signals

theorem Same.refl (m : Mem) : Same m m := ⟨fun _ => rfl, rfl, rfl⟩

theorem Same.trans {m n p : Mem} (h : Same m n) (k : Same n p) : Same m p :=
  ⟨fun b => (k.node b).trans (h.node b), k.head.trans h.head, k.signals.trans h.signals⟩

theorem Same.cell {m m' : Mem} (h : Same m m') {a : Addr} {c : Cycdata} (hc : m.node a = some c) :
    ∃ c', m'.node a = some c' ∧ c'.core = c.core := by
  have hn := h.node a
  rw [hc] at hn
  exact Option.map_eq_some_iff.mp hn

theorem core_method {c d : Cycdata} (h : c.core = d.core) (k : Method) : c.method k = d.method k := by
  have hk : ∀ e : Cycdata, e.core.method k = e.method k := by
    intro e
    cases k <;> rfl
  rw [← hk c, h, hk d]

theorem core_tidata {c d : Cycdata} (h : c.core = d.core) : c.tidata = d.tidata := by
  have ht := congrArg Cycdata.tidata h
  exact ht

theorem core_next {c d : Cycdata} (h : c.core = d.core) : c.next = d.next := by
  have hn := congrArg Cycdata.next h
  exact hn

theorem Same.emit (m : Mem) (es : List Event) : Same m (m.emit es) := ⟨fun _ => rfl, rfl, rfl⟩

theorem same_methodRet (who : Nat) (a : Addr) (k : Method) (ans : Ans) (m : Mem)
    (h : ans.tidata = none) : Same m (m.methodRet who a k ans) := by
  simp only [Mem.methodRet, h]
  split_ifs
  · refine (Same.emit m [.ret who a k ans.ret]).trans ⟨fun b => ?_, rfl, rfl⟩
    by_cases hb : b = a
    · subst hb
      change (((m.emit _).update b _).node b).map Cycdata.core = _
      rw [Mem.node_update_self, Option.map_map]
      rfl
    · exact congrArg _ (Mem.node_update_ne _ _ hb)
  · exact Same.emit m _

theorem methodTrace_methodRet (who : Nat) (a : Addr) (k : Method) (ans : Ans) (m : Mem) :
    (m.methodRet who a k ans).methodTrace = m.methodTrace ++ [.ret who a k ans.ret] := by
  simp [Mem.methodTrace, methodRet_trace, Event.isMethod]

theorem methodTrace_emit (m : Mem) (es : List Event) :
    (m.emit es).methodTrace = m.methodTrace ++ es.filter Event.isMethod := by
  simp [Mem.methodTrace, Mem.emit]

theorem turn_cons (ret : Method → Int) (who : Nat) (a : Addr) (c : Cycdata) (k : Method)
    (ks : List Method) : turn ret who a c (k :: ks) =
      if c.method k = none then turn ret who a c ks
      else .call who a k :: .ret who a k (ret k) ::
        if ret k < 0 then [] else turn ret who a c ks := by
  cases hk : c.method k with
  | none => simp [turn, hk]
  | some f =>
    simp only [turn, List.filter_cons, hk, Option.isSome_some, if_true, upTo_cons]
    by_cases hr : ret k < 0 <;> simp [hr]

def Cycdata.setLen (v : Int) (c : Cycdata) : Cycdata :=
  { c with tidata := { c.tidata with value := { c.tidata.value with len := v } } }

/-- The counter after a tick, as the code computes it. -/
def tickLen (c : Cycdata) : Int :=
  if c.tidata.key.len ≥ 0 then
    if c.tidata.key.len < toInt (c.tidata.value.len + 1) then 0 else toInt (c.tidata.value.len + 1)
  else c.tidata.value.len

def fires (c : Cycdata) : Bool :=
  c.tidata.key.len ≥ 0 ∧ c.tidata.key.len < toInt (c.tidata.value.len + 1)

def fire (ret : Nat → Addr → Method → Int) (who : Nat) (m : Mem) (a : Addr) : List Event :=
  match m.node a with
  | none => []
  | some c => if fires c then turn (ret who a) who a c [.seach, .howdo, .send] else []

def Mem.setLen (a : Addr) (v : Int) (m : Mem) : Mem := m.update a (Cycdata.setLen v)

theorem same_setLen {m m' : Mem} {a : Addr} {c : Cycdata} {v : Int} (hc : m.node a = some c)
    (hc' : m'.node a = some (c.setLen v)) (hne : ∀ b, b ≠ a → m'.node b = m.node b)
    (hh : m'.cychead = m.cychead) (hs : m'.signals = m.signals) : Same (m.setLen a v) m' := by
  refine ⟨fun b => ?_, hh, hs⟩
  by_cases hb : b = a
  · subst hb
    rw [hc', Mem.setLen, Mem.node_update_self, hc]
    rfl
  · rw [hne b hb, Mem.setLen, Mem.node_update_ne m _ hb]

theorem methodTrace_access (m : Mem) (ws : List Nat) (a : Addr) :
    (ws.foldl (fun m w => m.emit [.access w a]) m).methodTrace = m.methodTrace := by
  induction ws generalizing m with
  | nil => rfl
  | cons w ws ih =>
    rw [List.foldl_cons, ih, methodTrace_emit]
    simp [Event.isMethod]

theorem fire_core (ret : Nat → Addr → Method → Int) (who : Nat) {m m' : Mem} {a : Addr}
    (h : (m'.node a).map Cycdata.core = (m.node a).map Cycdata.core) :
    fire ret who m' a = fire ret who m a := by
  cases hc : m.node a with
  | none =>
    rw [hc] at h
    rw [fire, fire, hc, Option.map_eq_none_iff.mp h]
  | some c =>
    rw [hc] at h
    obtain ⟨d, hd, hcore⟩ := Option.map_eq_some_iff.mp h
    have hf : fires d = fires c := by simp only [fires, core_tidata hcore]
    simp only [fire, hc, hd, hf, turn, core_method hcore]

/-- The memory after the nodes of `l` had their turn, logs apart. -/
structure Ticked (m : Mem) (l : List Addr) (m' : Mem) : Prop where
  node : ∀ b, (m'.node b).map Cycdata.core = (m.node b).map fun c =>
    if b ∈ l then (c.setLen (tickLen c)).core else c.core
  head : m'.cychead = m.cychead
  signals : m'.signals = m.signals

theorem Ticked.one {m m' : Mem} {a : Addr} {c : Cycdata} (hc : m.node a = some c)
    (h : Same (m.setLen a (tickLen c)) m') : Ticked m [a] m' := by
  refine ⟨fun b => ?_, h.head, h.signals⟩
  rw [h.node b]
  by_cases hb : b = a
  · subst hb
    simp [Mem.setLen, Mem.node_update_self, hc]
  · simp [Mem.setLen, Mem.node_update_ne m _ hb, hb]

theorem Ticked.other {m m' : Mem} {l : List Addr} (h : Ticked m l m') {b : Addr} (hb : b ∉ l) :
    (m'.node b).map Cycdata.core = (m.node b).map Cycdata.core := by
  simpa [hb] using h.node b

theorem Ticked.trans {m n p : Mem} {k l : List Addr} (h : Ticked m k n) (g : Ticked n l p)
    (hd : ∀ b ∈ k, b ∉ l) : Ticked m (k ++ l) p := by
  refine ⟨fun b => ?_, g.head.trans h.head, g.signals.trans h.signals⟩
  by_cases hk : b ∈ k
  · rw [g.other (hd b hk), h.node b]
    simp [hk]
  · have hn := h.other hk
    rw [g.node b]
    cases hb : m.node b with
    | none =>
      rw [hb] at hn
      rw [Option.map_eq_none_iff.mp hn]
      rfl
    | some c =>
      rw [hb] at hn
      obtain ⟨d, hd', hcore⟩ := Option.map_eq_some_iff.mp hn
      rw [hd']
      have hlen : tickLen d = tickLen c := by simp only [tickLen, core_tidata hcore]
      have hset : (d.setLen (tickLen d)).core = (c.setLen (tickLen c)).core := by
        rw [hlen]
        exact congrArg (Cycdata.setLen (tickLen c)) hcore
      simp [hk, hset, hcore]

theorem Ticked.nxt {m m' : Mem} {l : List Addr} (h : Ticked m l m') : m'.nxt = m.nxt := by
  funext b
  have hcore : ∀ n : Mem, n.nxt b = ((n.node b).map Cycdata.core).map Cycdata.next := by
    intro n
    rw [Option.map_map]
    rfl
  rw [hcore, hcore, h.node b, Option.map_map, Option.map_map]
  congr 1
  funext c
  by_cases hb : b ∈ l <;> simp [hb, Cycdata.setLen, Cycdata.core]

section Steps
variable (dirch : List Byte) (env : Frame → Ans)

theorem period_step (who : Nat) {a : Addr} {c : Cycdata} {m : Mem} (hc : m.node a = some c) :
    (daemon dirch).soloBody env (.tick who (.period a), m) =
      .again (.tick who (if c.tidata.key.len ≥ 0 then .bump a else .next a), m.emit [.access who a]) := by
  simp only [Machine.soloBody, daemon, tickStep, touch, Mem.node_emit, hc]
  split_ifs <;> rfl

theorem bump_step (who : Nat) {a : Addr} {c : Cycdata} {m : Mem} (hc : m.node a = some c) :
    (daemon dirch).soloBody env (.tick who (.bump a), m) =
      .again (.tick who (.compare a), (m.emit [.access who a]).bump a) := by
  simp only [Machine.soloBody, daemon, tickStep, touch, Mem.node_emit, hc]

theorem compare_step (who : Nat) {a : Addr} {c : Cycdata} {m : Mem} (hc : m.node a = some c) :
    (daemon dirch).soloBody env (.tick who (.compare a), m) =
      .again (.tick who (if c.tidata.key.len < c.tidata.value.len then .reset a else .next a),
        m.emit [.access who a]) := by
  simp only [Machine.soloBody, daemon, tickStep, touch, Mem.node_emit, hc]
  split_ifs <;> rfl

theorem reset_step (who : Nat) {a : Addr} {c : Cycdata} {m : Mem} (hc : m.node a = some c) :
    (daemon dirch).soloBody env (.tick who (.reset a), m) =
      .again (.tick who (.method a [.seach, .howdo, .send]), (m.emit [.access who a]).reset a) := by
  simp only [Machine.soloBody, daemon, tickStep, touch, Mem.node_emit, hc]

/-- The counter is raised and compared; it wraps to 0 exactly when the methods are called. -/
theorem counter_run (who : Nat) {a : Addr} {c : Cycdata} {m : Mem} (hc : m.node a = some c)
    (hp : c.tidata.key.len ≥ 0) :
    ∃ m', Goes ((daemon dirch).soloBody env) (.tick who (.period a), m)
        (.tick who (if fires c then .method a [.seach, .howdo, .send] else .next a), m') ∧
      Same (m.setLen a (tickLen c)) m' ∧ m'.methodTrace = m.methodTrace := by
  let m₁ := m.emit [.access who a]
  let m₂ := (m₁.emit [.access who a]).bump a
  let m₃ := m₂.emit [.access who a]
  let v := toInt (c.tidata.value.len + 1)
  have h1 := period_step dirch env who hc
  rw [if_pos hp] at h1
  have h2 := bump_step dirch env who (show m₁.node a = some c from hc)
  have hc₂ : m₂.node a = some (c.setLen v) := by
    rw [show m₂.node a = (m.node a).map _ from Mem.node_update_self _ a _, hc]
    rfl
  have hne₂ : ∀ b, b ≠ a → m₂.node b = m.node b := fun b hb => Mem.node_update_ne _ _ hb
  have h3 := compare_step dirch env who hc₂
  have ht₂ : m₂.methodTrace = m.methodTrace := methodTrace_access m [who, who] a
  have ht₃ : m₃.methodTrace = m.methodTrace := methodTrace_access m [who, who, who] a
  by_cases hv : c.tidata.key.len < v
  · have hf : fires c = true := by simpa [fires, hp] using hv
    have hlen : tickLen c = 0 := by
      simp only [tickLen, hp, if_true]
      exact if_pos hv
    rw [if_pos (show (c.setLen v).tidata.key.len < (c.setLen v).tidata.value.len from hv)] at h3
    have h4 := reset_step dirch env who (show m₃.node a = some (c.setLen v) from hc₂)
    let m₄ := (m₃.emit [.access who a]).reset a
    have hc₄ : m₄.node a = some (c.setLen 0) := by
      rw [show m₄.node a = (m₂.node a).map _ from Mem.node_update_self _ a _, hc₂]
      rfl
    have hne₄ : ∀ b, b ≠ a → m₄.node b = m.node b := by
      intro b hb
      rw [← hne₂ b hb]
      exact Mem.node_update_ne _ _ hb
    refine ⟨m₄, ?_, ?_, methodTrace_access m [who, who, who, who] a⟩
    · rw [if_pos hf]
      exact (((Goes.one h1).trans (Goes.one h2)).trans (Goes.one h3)).trans (Goes.one h4)
    · rw [hlen]
      exact same_setLen hc hc₄ hne₄ rfl rfl
  · have hf : fires c = false := by simpa [fires, hp] using hv
    have hlen : tickLen c = v := by
      simp only [tickLen, hp, if_true]
      exact if_neg hv
    rw [if_neg (show ¬ (c.setLen v).tidata.key.len < (c.setLen v).tidata.value.len from hv)] at h3
    refine ⟨m₃, ?_, ?_, ht₃⟩
    · rw [if_neg (by simp [hf])]
      exact ((Goes.one h1).trans (Goes.one h2)).trans (Goes.one h3)
    · rw [hlen]
      exact same_setLen hc hc₂ hne₂ rfl rfl

theorem next_step (who : Nat) {a : Addr} {c : Cycdata} {m : Mem} (hc : m.node a = some c) :
    (daemon dirch).soloBody env (.tick who (.next a), m) =
      match c.next with
      | none => .leave (true, m.emit [.access who a])
      | some b => .again (.tick who (.period b), m.emit [.access who a]) := by
  simp only [Machine.soloBody, daemon, tickStep, touch, Mem.node_emit, hc]
  cases c.next <;> rfl

end Steps

section Run
variable (dirch : List Byte) (ret : Nat → Addr → Method → Int) (openLog : Nat → Addr → Method → Bool)

abbrev tickBody : Frame × Mem → Pass (Frame × Mem) (Bool × Mem) :=
  (daemon dirch).soloBody (calm ret openLog)

/-- TimeDo calls the remaining methods up to the first failure and changes no clock. -/
theorem timeDo_run (who : Nat) (a : Addr) (ks : List Method) {c : Cycdata} {m : Mem}
    (hc : m.node a = some c) :
    ∃ m', Goes (tickBody dirch ret openLog) (.tick who (.method a ks), m) (.tick who (.next a), m') ∧
      Same m m' ∧ m'.methodTrace = m.methodTrace ++ turn (ret who a) who a c ks := by
  induction ks generalizing c m with
  | nil => exact ⟨m, Goes.one rfl, Same.refl m, by simp [turn, upTo]⟩
  | cons k ks ih =>
    have hs := Same.emit m [.access who a]
    by_cases hk : c.method k = none
    · have h1 : Goes (tickBody dirch ret openLog) (.tick who (.method a (k :: ks)), m)
          (.tick who (.method a ks), m.emit [.access who a]) := Goes.one (by
        simp [Machine.soloBody, daemon, tickStep, touch, Mem.emit, Mem.node] at hc ⊢
        simp [hc, hk])
      obtain ⟨m', hg, hm, ht⟩ := ih (m := m.emit [.access who a]) hc
      refine ⟨m', h1.trans hg, hs.trans hm, ?_⟩
      rw [ht, methodTrace_emit, turn_cons, if_pos hk]
      simp [Event.isMethod]
    · let m₁ := (m.emit [.access who a]).emit [.call who a k]
      have h1 : Goes (tickBody dirch ret openLog) (.tick who (.method a (k :: ks)), m)
          (.tick who (.wait a k ks), m₁) := Goes.one (by
        simp [Machine.soloBody, daemon, tickStep, touch, Mem.emit, Mem.node, m₁] at hc ⊢
        simp [hc, hk])
      let ans := calm ret openLog (.tick who (.wait a k ks))
      let m₂ := m₁.methodRet who a k ans
      have hs₂ : Same m m₂ := (hs.trans (Same.emit _ _)).trans (same_methodRet who a k ans m₁ rfl)
      have ht₂ : m₂.methodTrace = m.methodTrace ++ [.call who a k, .ret who a k (ret who a k)] := by
        have hr := methodTrace_methodRet who a k ans m₁
        rw [methodTrace_emit, methodTrace_emit, List.append_assoc, List.append_assoc] at hr
        exact hr
      by_cases hr : ret who a k < 0
      · have h2 : Goes (tickBody dirch ret openLog) (.tick who (.wait a k ks), m₁)
            (.tick who (.next a), m₂) := Goes.one (by
          simp [Machine.soloBody, daemon, tickStep, m₂, ans, calm, hr])
        refine ⟨m₂, h1.trans h2, hs₂, ?_⟩
        rw [ht₂, turn_cons, if_neg hk, if_pos hr]
      · have h2 : Goes (tickBody dirch ret openLog) (.tick who (.wait a k ks), m₁)
            (.tick who (.method a ks), m₂) := Goes.one (by
          simp [Machine.soloBody, daemon, tickStep, m₂, ans, calm, hr])
        obtain ⟨c₂, hc₂, hcore⟩ := hs₂.cell hc
        obtain ⟨m', hg, hm, ht⟩ := ih hc₂
        refine ⟨m', (h1.trans h2).trans hg, hs₂.trans hm, ?_⟩
        have hturn : turn (ret who a) who a c₂ ks = turn (ret who a) who a c ks := by
          simp only [turn, core_method hcore]
        rw [ht, ht₂, hturn, turn_cons, if_neg hk, if_neg hr]
        simp

/-- What the handler does to one node between reading its period and reading its successor. -/
theorem node_run (who : Nat) {a : Addr} {c : Cycdata} {m : Mem} (hc : m.node a = some c) :
    ∃ m', Goes (tickBody dirch ret openLog) (.tick who (.period a), m) (.tick who (.next a), m') ∧
      Same (m.setLen a (tickLen c)) m' ∧ m'.methodTrace = m.methodTrace ++ fire ret who m a := by
  by_cases hp : c.tidata.key.len ≥ 0
  · obtain ⟨m₁, hg, hs, ht⟩ := counter_run dirch (calm ret openLog) who hc hp
    by_cases hf : fires c = true
    · rw [if_pos hf] at hg
      have hu : (m.setLen a (tickLen c)).node a = some (c.setLen (tickLen c)) := by
        rw [Mem.setLen, Mem.node_update_self, hc]
        rfl
      obtain ⟨c₁, hc₁, hcore⟩ := hs.cell hu
      obtain ⟨m', hg', hs', ht'⟩ := timeDo_run dirch ret openLog
        who a [.seach, .howdo, .send] hc₁
      refine ⟨m', hg.trans hg', hs.trans hs', ?_⟩
      have hturn : turn (ret who a) who a c₁ [.seach, .howdo, .send] =
          turn (ret who a) who a c [.seach, .howdo, .send] := by
        simp only [turn, core_method hcore]
        rfl
      rw [ht', ht, hturn]
      simp [fire, hc, hf]
    · rw [if_neg hf] at hg
      exact ⟨m₁, hg, hs, by simp [ht, fire, hc, hf]⟩
  · have h1 := period_step dirch (calm ret openLog) who hc
    rw [if_neg hp] at h1
    have hlen : tickLen c = c.tidata.value.len := by simp [tickLen, hp]
    have hf : fires c = false := by simp [fires, hp]
    refine ⟨m.emit [.access who a], Goes.one h1, ?_, ?_⟩
    · rw [hlen]
      exact same_setLen hc hc (fun _ _ => rfl) rfl rfl
    · simp [methodTrace_emit, Event.isMethod, fire, hc, hf]

theorem node_turn (who : Nat) {a : Addr} {c : Cycdata} {m : Mem} (hc : m.node a = some c) :
    ∃ m', Ticked m [a] m' ∧ m'.methodTrace = m.methodTrace ++ fire ret who m a ∧
      (c.next = none → Leaves (tickBody dirch ret openLog) (.tick who (.period a), m) (true, m')) ∧
      ∀ b, c.next = some b →
        Goes (tickBody dirch ret openLog) (.tick who (.period a), m) (.tick who (.period b), m') := by
  obtain ⟨m₁, hg, hs, ht⟩ := node_run dirch ret openLog who hc
  have hu : (m.setLen a (tickLen c)).node a = some (c.setLen (tickLen c)) := by
    rw [Mem.setLen, Mem.node_update_self, hc]
    rfl
  obtain ⟨c₁, hc₁, hcore⟩ := hs.cell hu
  have hnext : c₁.next = (c.setLen (tickLen c)).next := core_next hcore
  have hstep := next_step dirch (calm ret openLog) who hc₁
  rw [hnext, Cycdata.setLen] at hstep
  refine ⟨m₁.emit [.access who a], Ticked.one hc (hs.trans (Same.emit m₁ _)), ?_, fun hn => ?_,
    fun b hn => ?_⟩
  · rw [← ht]
    exact methodTrace_access m₁ [who] a
  · rw [hn] at hstep
    exact Leaves.of_goes hg (Leaves.now hstep)
  · rw [hn] at hstep
    exact hg.trans (Goes.one hstep)

/-- A whole tick: every module of the list gets its turn, and no other node is written. -/
theorem walk_run (who : Nat) (l : List Addr) {a : Addr} {m : Mem} (h : Chain m.nxt (some a) (a :: l)) :
    ∃ m', Leaves (tickBody dirch ret openLog) (.tick who (.period a), m) (true, m') ∧
      Ticked m (a :: l) m' ∧
      m'.methodTrace = m.methodTrace ++ (a :: l).flatMap (fire ret who m) := by
  induction l generalizing a m with
  | nil =>
    obtain ⟨_, r, hr, hl⟩ := h
    obtain ⟨c, hc, hnext⟩ := Option.map_eq_some_iff.mp hr
    have hn : c.next = none := hnext.trans hl
    obtain ⟨m', hone, ht, hret, _⟩ := node_turn dirch ret openLog who hc
    exact ⟨m', hret hn, hone, by simpa using ht⟩
  | cons b l ih =>
    have hnd := chain_nodup h
    have ha : a ∉ b :: l := (List.nodup_cons.mp hnd).1
    obtain ⟨_, r, hr, hl⟩ := h
    obtain ⟨c, hc, hnext⟩ := Option.map_eq_some_iff.mp hr
    have hn : c.next = some b := hnext.trans hl.1
    obtain ⟨m₁, hone, ht₁, _, hgo⟩ := node_turn dirch ret openLog who hc
    have hl₁ : Chain m₁.nxt (some b) (b :: l) := by
      rw [hone.nxt, ← hl.1]
      exact hl
    obtain ⟨m', hrun, hrest, ht⟩ := ih hl₁
    refine ⟨m', Leaves.of_goes (hgo b hn) hrun, hone.trans hrest ?_, ?_⟩
    · intro x hx
      rw [List.mem_singleton.mp hx]
      exact ha
    · have hsame : (b :: l).flatMap (fire ret who m₁) = (b :: l).flatMap (fire ret who m) := by
        refine List.flatMap_congr fun x hx => fire_core ret who (hone.other ?_)
        intro hxa
        rw [List.mem_singleton.mp hxa] at hx
        exact ha hx
      rw [ht, ht₁, hsame]
      simp

/-- One delivery of the timer signal, run to its return. -/
theorem tick_run {mods : List Addr} {m : Mem} (h : m.ListIs mods) :
    ∃ m', Leaves (tickBody dirch ret openLog) ((daemon dirch).enter .alarm m) (true, m') ∧
      Ticked { m with signals := m.signals + 1 } mods m' ∧
      m'.methodTrace = m.methodTrace ++ mods.flatMap (fire ret (m.signals + 1) m) := by
  cases mods with
  | nil =>
    have hn : m.cychead = none := h
    refine ⟨{ m with signals := m.signals + 1 }, Leaves.now ?_, ⟨fun b => by simp, rfl, rfl⟩, ?_⟩
    · simp [Machine.soloBody, daemon, tickStep, hn]
    · simp [Mem.methodTrace]
  | cons a l =>
    have ha : m.cychead = some a := h.1
    have hw : Chain ({ m with signals := m.signals + 1 } : Mem).nxt (some a) (a :: l) := ha ▸ h
    obtain ⟨m', hrun, ht, htr⟩ := walk_run dirch ret openLog (m.signals + 1) l hw
    refine ⟨m', Leaves.step ?_ hrun, ht, htr⟩
    simp [Machine.soloBody, daemon, tickStep, ha]

end Run

def counter (P : Int) (t : Nat) : Int := if 0 ≤ P then (t : Int) % (P + 1) else 0

/-- A counter that stands at `t` modulo the period reaches it exactly when the next tick is due. -/
theorem counter_next {P : Int} (h0 : 0 ≤ P) (hP : P < 2 ^ 31 - 1) (t : Nat) :
    toInt (counter P t + 1) = counter P t + 1 ∧
      (P < counter P t + 1 ↔ due P (t + 1) = true) ∧
      counter P (t + 1) = if P < counter P t + 1 then 0 else counter P t + 1 := by
  have hlo := Int.emod_nonneg (t : Int) (show P + 1 ≠ 0 by omega)
  have hhi := Int.emod_lt_of_pos (t : Int) (show 0 < P + 1 by omega)
  have hnext : ((t + 1 : Nat) : Int) % (P + 1) = ((t : Int) % (P + 1) + 1) % (P + 1) := by
    rw [Nat.cast_add, Nat.cast_one, Int.emod_add_emod]
  simp only [counter, h0, if_true, due, true_and, decide_eq_true_eq]
  refine ⟨toInt_eq (by omega) (by omega), ?_, ?_⟩
  · rw [Int.dvd_iff_emod_eq_zero, hnext]
    constructor
    · intro hlt
      rw [show (t : Int) % (P + 1) + 1 = P + 1 by omega, Int.emod_self]
    · intro hz
      by_contra hlt
      rw [Int.emod_eq_of_lt (by omega) (by omega)] at hz
      omega
  · rw [hnext]
    by_cases hlt : P < (t : Int) % (P + 1) + 1
    · rw [if_pos hlt, show (t : Int) % (P + 1) + 1 = P + 1 by omega, Int.emod_self]
    · rw [if_neg hlt, Int.emod_eq_of_lt (by omega) (by omega)]

/-- The module list and its clocks after `t` ticks. -/
structure Clocked (m : Mem) (mods : List Addr) (t : Nat) (m' : Mem) : Prop where
  list : m'.ListIs mods
  signals : m'.signals = m.signals + t
  node : ∀ a ∈ mods, ∀ c, m.node a = some c → ∃ c', m'.node a = some c' ∧
    c'.core = (c.setLen (counter c.tidata.key.len t)).core

/-- The periods and initial counters that the schedule is about. -/
def Periodic (m : Mem) (mods : List Addr) : Prop :=
  ∀ a ∈ mods, ∀ c, m.node a = some c → c.tidata.value.len = 0 ∧ c.tidata.key.len < 2 ^ 31 - 1

theorem Clocked.start {m : Mem} {mods : List Addr} (h : m.ListIs mods) (hp : Periodic m mods) :
    Clocked m mods 0 m := by
  refine ⟨h, rfl, fun a ha c hc => ⟨c, hc, ?_⟩⟩
  have h0 : counter c.tidata.key.len 0 = c.tidata.value.len := by
    rw [(hp a ha c hc).1]
    simp [counter]
  rw [h0]
  rfl

/-- A node on the clock fires in the next tick exactly when it is due, and the clock goes on. -/
theorem clock_step {c c' : Cycdata} {t : Nat} (hP : c.tidata.key.len < 2 ^ 31 - 1)
    (hc : c'.core = (c.setLen (counter c.tidata.key.len t)).core) :
    fires c' = due c.tidata.key.len (t + 1) ∧
      (c'.setLen (tickLen c')).core = (c.setLen (counter c.tidata.key.len (t + 1))).core := by
  have htd : c'.tidata = (c.setLen (counter c.tidata.key.len t)).tidata := core_tidata hc
  have hlen : ∀ v, (c'.setLen v).core = (c.setLen v).core := fun v => congrArg (Cycdata.setLen v) hc
  by_cases h0 : 0 ≤ c.tidata.key.len
  · obtain ⟨hint, hdue, hnext⟩ := counter_next h0 hP t
    have hk : c'.tidata.key.len = c.tidata.key.len := by rw [htd, Cycdata.setLen]
    have hvl : c'.tidata.value.len = counter c.tidata.key.len t := by rw [htd, Cycdata.setLen]
    constructor
    · rw [Bool.eq_iff_iff, ← hdue]
      simp [fires, hk, hvl, h0, hint]
    · rw [hlen, hnext]
      simp [tickLen, hk, hvl, h0, hint]
  · have hk : c'.tidata.key.len = c.tidata.key.len := by rw [htd, Cycdata.setLen]
    have hvl : c'.tidata.value.len = counter c.tidata.key.len t := by rw [htd, Cycdata.setLen]
    constructor
    · simp [fires, due, hk, h0]
    · rw [hlen]
      simp [tickLen, hk, hvl, h0, counter]

theorem Clocked.tick {m m₁ m₂ : Mem} {mods : List Addr} {t : Nat} (hp : Periodic m mods)
    (h : Clocked m mods t m₁) (ht : Ticked { m₁ with signals := m₁.signals + 1 } mods m₂) :
    Clocked m mods (t + 1) m₂ := by
  refine ⟨?_, ?_, fun a ha c hc => ?_⟩
  · have hn := ht.nxt
    have hh := ht.head
    rw [Mem.ListIs, hn, hh]
    exact h.list
  · have hs : m₂.signals = m₁.signals + 1 := ht.signals
    rw [hs, h.signals, Nat.add_assoc]
  · obtain ⟨c', hc', hcore⟩ := h.node a ha c hc
    have hn := ht.node a
    rw [show ({ m₁ with signals := m₁.signals + 1 } : Mem).node a = some c' from hc'] at hn
    obtain ⟨d, hd, hdc⟩ := Option.map_eq_some_iff.mp hn
    refine ⟨d, hd, ?_⟩
    rw [hdc]
    simp only [ha, if_true]
    exact (clock_step (hp a ha c hc).2 hcore).2

theorem Clocked.fire {m m₁ : Mem} {mods : List Addr} {t : Nat} (hp : Periodic m mods)
    (h : Clocked m mods t m₁) (ret : Nat → Addr → Method → Int) {a : Addr} (ha : a ∈ mods)
    (hl : ∃ c, m.node a = some c) :
    TimeTask.fire ret (m₁.signals + 1) m₁ a = slot ret m (t + 1) a := by
  obtain ⟨c, hc⟩ := hl
  obtain ⟨c', hc', hcore⟩ := h.node a ha c hc
  have hturn : ∀ who ks, turn (ret who a) who a c' ks = turn (ret who a) who a c ks := by
    intro who ks
    simp only [turn, core_method hcore]
    rfl
  have hs : m₁.signals + 1 = m.signals + (t + 1) := by
    rw [h.signals]
    omega
  simp only [TimeTask.fire, slot, hc, hc', (clock_step (hp a ha c hc).2 hcore).1, hturn, hs]

theorem turn_ofModule (ret : Method → Int) (who : Nat) (a b : Addr) (c : Cycdata) (ks : List Method) :
    (turn ret who b c ks).filter (Event.ofModule a) = if b = a then turn ret who b c ks else [] := by
  simp only [turn, List.filter_flatMap]
  by_cases hb : b = a <;> simp [Event.ofModule, hb]

theorem slot_ofModule (ret : Nat → Addr → Method → Int) (m : Mem) (t : Nat) (a b : Addr) :
    (slot ret m t b).filter (Event.ofModule a) = if b = a then slot ret m t b else [] := by
  simp only [slot]
  cases m.node b with
  | none => simp
  | some c =>
    by_cases hd : due c.tidata.key.len t = true
    · simp only [hd, if_true, turn_ofModule]
    · simp [hd]

/-- The reference trace of one module depends on nothing but that module. -/
theorem reference_ofModule (ret : Nat → Addr → Method → Int) (m : Mem) {mods : List Addr}
    (hn : mods.Nodup) {a : Addr} (ha : a ∈ mods) (n : Nat) :
    (reference ret m mods n).filter (Event.ofModule a) =
      (List.range n).flatMap fun i => slot ret m (i + 1) a := by
  simp only [reference, List.filter_flatMap]
  congr 1
  funext i
  simp only [slot_ofModule]
  obtain ⟨k, l, he⟩ := List.append_of_mem ha
  subst he
  have hk : ∀ b ∈ k, b ≠ a := by
    intro b hb hba
    exact (List.nodup_append.mp hn).2.2 b hb a (by simp) hba
  have hl : ∀ b ∈ l, b ≠ a := by
    intro b hb hba
    have := (List.nodup_cons.mp (List.nodup_append.mp hn).2.1).1
    exact this (hba ▸ hb)
  have hnil : ∀ xs : List Addr, (∀ b ∈ xs, b ≠ a) →
      (xs.flatMap fun b => if b = a then slot ret m (i + 1) b else []) = [] := by
    intro xs hx
    rw [List.flatMap_eq_nil_iff]
    intro b hb
    exact if_neg (hx b hb)
  rw [List.flatMap_append, List.flatMap_cons, hnil k hk, hnil l hl]
  simp

theorem ticks_run (dirch : List Byte) (ret : Nat → Addr → Method → Int)
    (openLog : Nat → Addr → Method → Bool) {m : Mem} {mods : List Addr} (h : m.ListIs mods)
    (hp : Periodic m mods) (n : Nat) :
    ∃ m', Ticks dirch (calm ret openLog) n m m' ∧ Clocked m mods n m' ∧
      m'.methodTrace = m.methodTrace ++ reference ret m mods n := by
  induction n with
  | zero => exact ⟨m, Ticks.zero m, Clocked.start h hp, by simp [reference]⟩
  | succ n ih =>
    obtain ⟨m₁, hrun, hclock, htr⟩ := ih
    obtain ⟨m₂, hleave, hticked, htr₂⟩ := tick_run dirch ret openLog hclock.list
    refine ⟨m₂, Ticks.succ hrun hleave, hclock.tick hp hticked, ?_⟩
    have hslots : mods.flatMap (fire ret (m₁.signals + 1) m₁) = mods.flatMap (slot ret m (n + 1)) :=
      List.flatMap_congr fun a ha => hclock.fire hp ret ha (h.node ha)
    rw [htr₂, htr, hslots]
    simp [reference, List.range_succ]

/-- The exact tick schedule: `n` successive runs of the handler return, and what they call is
the reference trace, of which each module's part depends on that module alone; every enabled
counter is between 0 and its period. -/
theorem cycleTimeMethod_schedule (dirch : List Byte) (ret : Nat → Addr → Method → Int)
    (openLog : Nat → Addr → Method → Bool) (m : Mem) (mods : List Addr) (h : m.ListIs mods)
    (hp : Periodic m mods) (n : Nat) :
    (∃ m', Ticks dirch (calm ret openLog) n m m') ∧
    ∀ m', Ticks dirch (calm ret openLog) n m m' →
      m'.methodTrace = m.methodTrace ++ reference ret m mods n ∧
      (∀ a ∈ mods, (reference ret m mods n).filter (Event.ofModule a) =
        (List.range n).flatMap fun i => slot ret m (i + 1) a) ∧
      ∀ a ∈ mods, ∀ c, m.node a = some c → ∃ c', m'.node a = some c' ∧
        c'.tidata.key = c.tidata.key ∧
        (0 ≤ c.tidata.key.len → 0 ≤ c'.tidata.value.len ∧ c'.tidata.value.len ≤ c.tidata.key.len) := by
  obtain ⟨m₁, hrun, hclock, htr⟩ := ticks_run dirch ret openLog h hp n
  refine ⟨⟨m₁, hrun⟩, fun m' hm' => ?_⟩
  have he := hm'.unique hrun
  subst he
  refine ⟨htr, fun a ha => reference_ofModule ret m (chain_nodup h) ha n, fun a ha c hc => ?_⟩
  obtain ⟨c', hc', hcore⟩ := hclock.node a ha c hc
  have htd : c'.tidata = (c.setLen (counter c.tidata.key.len n)).tidata := core_tidata hcore
  refine ⟨c', hc', by rw [htd, Cycdata.setLen], fun h0 => ?_⟩
  have hlo := Int.emod_nonneg (n : Int) (show c.tidata.key.len + 1 ≠ 0 by omega)
  have hhi := Int.emod_lt_of_pos (n : Int) (show 0 < c.tidata.key.len + 1 by omega)
  have hv : c'.tidata.value.len = (n : Int) % (c.tidata.key.len + 1) := by
    rw [htd, Cycdata.setLen]
    simp [counter, h0]
  omega

def clocked : Mem :=
  let c : Cycdata := { Cycdata.zero with seach := some 1, howdo := some 2, send := some 3 }
  { Mem.init with
    nodes := (Heap.empty.alloc { c with next := some 1 }).alloc
      { c with howdo := none, tidata := { c.tidata with key := ⟨none, 1⟩ } }
    cychead := some 0 }

theorem cycleTimeMethod_schedule_two :
    ∃ m', Ticks [] (calm (fun _ _ k => if k = .howdo then -1 else 0) fun _ _ _ => false) 2 clocked m' ∧
      m'.methodTrace =
        [.call 1 0 .seach, .ret 1 0 .seach 0, .call 1 0 .howdo, .ret 1 0 .howdo (-1),
          .call 2 0 .seach, .ret 2 0 .seach 0, .call 2 0 .howdo, .ret 2 0 .howdo (-1),
          .call 2 1 .seach, .ret 2 1 .seach 0, .call 2 1 .send, .ret 2 1 .send 0] := by
  have hl : clocked.ListIs [0, 1] := ⟨rfl, some 1, rfl, rfl, none, rfl, rfl⟩
  have hp : Periodic clocked [0, 1] := by
    intro a ha c hc
    cases List.mem_cons.mp ha with
    | inl h0 =>
      subst h0
      cases hc
      decide
    | inr h1 =>
      rw [List.mem_singleton.mp h1] at hc
      cases hc
      decide
  obtain ⟨⟨m', hm'⟩, hall⟩ := cycleTimeMethod_schedule []
    (fun _ _ k => if k = .howdo then -1 else 0) (fun _ _ _ => false) clocked [0, 1] hl hp 2
  exact ⟨m', hm', (hall m' hm').1⟩

end TimeTask
