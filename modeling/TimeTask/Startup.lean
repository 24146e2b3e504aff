import TimeTask.Effects
import TimeTask.Reentry
import TimeTask.Tick

/-! Timer signals during startup: which module can be run before it is initialised. -/
namespace TimeTask
open Lib

/-- The init and login that the module has have returned a value that is not negative. -/
def Inited (m : Mem) (a : Addr) : Prop :=
  ∃ c, m.node a = some c ∧ ∀ k ∈ [Method.init, .login], c.method k ≠ none →
    ∃ w r, Event.ret w a k r ∈ m.trace ∧ 0 ≤ r

def Cycdata.NoTasks (c : Cycdata) : Prop := ∀ k ∈ [Method.seach, .howdo, .send], c.method k = none

/-- The next tick passes the module by. -/
def Idle (m : Mem) (a : Addr) : Prop := ∀ c, m.node a = some c → fires c = false ∨ c.NoTasks

/-- Every module that a walk from the pointer visits is initialised or idle. -/
def Ready (m : Mem) (p : Option Addr) : Prop :=
  ∀ k b r, Seg m.nxt p (k ++ [b]) r → Inited m b ∨ Idle m b

/-- Only timer signals, each of them while no module on the list waits for its init. -/
def TimerReady (c : Config Frame Mem) : Label Ans Signal → Prop
  | .run _ => True
  | .signal .alarm => Ready c.mem c.mem.cychead
  | .signal .usr1 => False

/-- Links lead to younger nodes only. -/
structure Rising (m : Mem) : Prop where
  next : ∀ a b, m.nxt a = some (some b) → a < b
  tail : ∀ t, m.cycheadnext = some t → t < m.nodes.brk

theorem Rising.seg {m : Mem} (h : Rising m) {a : Addr} {p q : Option Addr} {l : List Addr}
    (ha : ∀ b, p = some b → a < b) (hs : Seg m.nxt p l q) : ∀ b ∈ l, a < b := by
  induction l generalizing p a with
  | nil => simp
  | cons x l ih =>
    obtain ⟨hp, r, hr, hl⟩ := hs
    have hax := ha x hp
    intro b hb
    cases List.mem_cons.mp hb with
    | inl he => exact he ▸ hax
    | inr hb =>
      refine Nat.lt_trans hax (ih (fun y hy => h.next x y ?_) hl b hb)
      rw [hr, hy]

theorem Rising.keep {E : Event → Prop} {m n : Mem} (h : Rising m) (hk : Keep E m n) : Rising n := by
  refine ⟨?_, ?_⟩
  · rw [hk.nxt]
    exact h.next
  · rw [hk.tail, hk.brk]
    exact h.tail

section Local
variable {a b : Addr} {E : Event → Prop} {m n : Mem}

theorem Inited.local (hl : Local a E m n) (hb : b ≠ a) (h : Inited m b) : Inited n b := by
  obtain ⟨c, hc, hi⟩ := h
  obtain ⟨es, he, _⟩ := hl.trace
  refine ⟨c, (hl.other b hb).trans hc, fun k hk hm => ?_⟩
  obtain ⟨w, r, hr, h0⟩ := hi k hk hm
  exact ⟨w, r, by rw [he]; exact List.mem_append_left es hr, h0⟩

theorem Idle.local (hl : Local a E m n) (hb : b ≠ a) (h : Idle m b) : Idle n b := by
  intro c hc
  rw [hl.other b hb] at hc
  exact h c hc

/-- The modules behind `a` do not notice what happens to `a`. -/
theorem Ready.behind (hl : Local a E m n) (hr : Rising m) {p : Option Addr}
    (hp : ∀ b, p = some b → a < b) (h : Ready m p) : Ready n p := by
  intro k b r hs
  rw [hl.nxt] at hs
  have hb : b ≠ a := by
    have := hr.seg hp hs b (by simp)
    intro he
    exact Nat.lt_irrefl a (he ▸ this)
  cases h k b r hs with
  | inl hi => exact Or.inl (hi.local hl hb)
  | inr hi => exact Or.inr (hi.local hl hb)

end Local

def After (m : Mem) (a : Addr) : Prop := ∀ r, m.nxt a = some r → Ready m r

theorem After.local {a : Addr} {E : Event → Prop} {m n : Mem} (h : After m a) (hl : Local a E m n)
    (hr : Rising m) : After n a := by
  intro r hn
  rw [hl.nxt] at hn
  refine (h r hn).behind hl hr fun b hb => hr.next a b ?_
  rw [hn, hb]

theorem Ready.head {m : Mem} {a : Addr} (h : Ready m (some a)) {c : Cycdata} (hc : m.node a = some c) :
    (Inited m a ∨ Idle m a) ∧ After m a := by
  have hn := Mem.nxt_of_node hc
  refine ⟨h [] a c.next ⟨rfl, c.next, hn, rfl⟩, fun r hr k b q hs => ?_⟩
  exact h (a :: k) b q ⟨rfl, r, hr, hs⟩

/-- What holds while a tick is at the node `a`, statement by statement. -/
def TickSafe (m : Mem) : TickPc → Prop
  | .enter => Ready m m.cychead
  | .period a => Ready m (some a)
  | .bump a => After m a ∧ (Inited m a ∨ ∀ c, m.node a = some c →
      ¬ c.tidata.key.len < toInt (c.tidata.value.len + 1) ∨ c.NoTasks)
  | .compare a => After m a ∧ (Inited m a ∨ ∀ c, m.node a = some c →
      ¬ c.tidata.key.len < c.tidata.value.len ∨ c.NoTasks)
  | .reset a => After m a ∧ (Inited m a ∨ ∀ c, m.node a = some c → c.NoTasks)
  | .method a ks => After m a ∧ (∀ k ∈ ks, k ∈ [Method.seach, .howdo, .send]) ∧
      (Inited m a ∨ ∀ c, m.node a = some c → c.NoTasks)
  | .wait a _ ks => After m a ∧ (∀ k ∈ ks, k ∈ [Method.seach, .howdo, .send]) ∧ Inited m a
  | .next a => After m a

/-- The assertion of each frame. -/
def StartSafe (f : Frame) (m : Mem) : Prop :=
  Rising m ∧ match f with
    | .main (.linkHead tem _ _) => tem < m.nodes.brk ∧ ∀ t, m.cycheadnext = some t → t < tem
    | .main (.linkTail tem _ _) => tem < m.nodes.brk
    | .tick _ pc => TickSafe m pc
    | _ => True

theorem Inited.self {a : Addr} {E : Event → Prop} {m n : Mem} (hl : Local a E m n)
    (hn : ∀ c, m.node a = some c → ∃ d, n.node a = some d ∧ ∀ k, d.method k = c.method k)
    (h : Inited m a) : Inited n a := by
  obtain ⟨c, hc, hi⟩ := h
  obtain ⟨d, hd, hm⟩ := hn c hc
  obtain ⟨es, he, _⟩ := hl.trace
  refine ⟨d, hd, fun k hk hne => ?_⟩
  rw [hm] at hne
  obtain ⟨w, r, hr, h0⟩ := hi k hk hne
  exact ⟨w, r, by rw [he]; exact List.mem_append_left es hr, h0⟩

theorem methodRet_method (who : Nat) (a : Addr) (k : Method) (ans : Ans) (m : Mem) :
    ∀ c, m.node a = some c →
      ∃ d, (m.methodRet who a k ans).node a = some d ∧ ∀ j, d.method j = c.method j := by
  have hkeep : ∀ (c d : Cycdata) (l : Option Addr), (∀ j, d.method j = c.method j) →
      ∀ j, ({ d with ld := l } : Cycdata).method j = c.method j := by
    intro c d l h j
    rw [← h j]
    cases j <;> rfl
  have hlog : ∀ (n : Mem) (c : Cycdata), (∃ d, n.node a = some d ∧ ∀ j, d.method j = c.method j) →
      ∃ d, (if ans.openLog then
        { n.update a fun c => { c with ld := some n.logs.brk } with logs := n.logs.alloc () } else n).node a
          = some d ∧ ∀ j, d.method j = c.method j := by
    intro n c h
    obtain ⟨d, hd, hj⟩ := h
    cases ans.openLog with
    | false => exact ⟨d, hd, hj⟩
    | true =>
      refine ⟨{ d with ld := some n.logs.brk }, ?_, hkeep c d _ hj⟩
      have hu := Mem.node_update_self n a fun c => { c with ld := some n.logs.brk }
      rw [hd] at hu
      exact hu
  intro c hc
  simp only [Mem.methodRet]
  cases ans.tidata with
  | none => exact hlog _ c ⟨c, hc, fun _ => rfl⟩
  | some t =>
    refine hlog _ c ⟨{ c with tidata := t }, ?_, fun j => by cases j <;> rfl⟩
    rw [Mem.node_update_self, Mem.node_emit, hc]
    rfl

/-- A tick that goes on after a step is safe where it is then. -/
def GoesSafe (who : Nat) (r : Ctl Frame × Mem) : Prop :=
  r.1.Stays fun g => ∃ pc, g = .tick who pc ∧ TickSafe r.2 pc

theorem run_node {a : Addr} {E : Event → Prop} {m n : Mem} {c d : Cycdata} {P Q : Cycdata → Prop}
    (hl : Local a E m n) (hc : m.node a = some c) (hd : n.node a = some d)
    (hk : ∀ k, d.method k = c.method k) (hpq : P c → Q d)
    (h : Inited m a ∨ ∀ x, m.node a = some x → P x) : Inited n a ∨ ∀ x, n.node a = some x → Q x := by
  cases h with
  | inl hi =>
    refine Or.inl (hi.self hl fun x hx => ?_)
    rw [hc, Option.some.injEq] at hx
    exact ⟨d, hd, fun k => by rw [hk, hx]⟩
  | inr hi =>
    refine Or.inr fun x hx => ?_
    rw [hd, Option.some.injEq] at hx
    exact hx ▸ hpq (hi c hc)

/-- One statement of a tick keeps its assertion. -/
theorem tickStep_safe (who : Nat) (pc : TickPc) (ans : Ans) (m : Mem) (hr : Rising m)
    (h : TickSafe m pc) : GoesSafe who (tickStep who pc ans m) := by
  have hacc : ∀ a, Local a (fun _ => True) m (m.emit [.access who a]) :=
    fun a => Local.emit a m fun _ _ => trivial
  cases pc with
  | enter =>
    have h' : Ready m m.cychead := h
    cases hc : m.cychead with
    | none =>
      simp only [tickStep, hc]
      trivial
    | some a =>
      rw [hc] at h'
      simp only [tickStep, hc]
      exact ⟨_, rfl, h'⟩
  | period a =>
    simp only [tickStep, touch, Mem.node_emit]
    cases hc : m.node a with
    | none => trivial
    | some c =>
      obtain ⟨hready, hafter⟩ := Ready.head h hc
      have hafter' := hafter.local (hacc a) hr
      by_cases hp : c.tidata.key.len ≥ 0
      · simp only [hp, if_true]
        refine ⟨_, rfl, hafter', run_node (hacc a) hc hc (fun _ => rfl) (fun hi => ?_) hready⟩
        cases hi with
        | inl hf => exact Or.inl (by simpa [fires, hp] using hf)
        | inr hn => exact Or.inr hn
      · simp only [hp, if_false]
        exact ⟨_, rfl, hafter'⟩
  | bump a =>
    obtain ⟨hafter, hrun⟩ := h
    simp only [tickStep, touch, Mem.node_emit]
    cases hc : m.node a with
    | none => trivial
    | some c =>
      have hl : Local a (fun _ => True) m ((m.emit [.access who a]).bump a) :=
        (hacc a).trans (Local.update _ a fun _ => rfl)
      have hn : ((m.emit [.access who a]).bump a).node a =
          some (c.setLen (toInt (c.tidata.value.len + 1))) := by
        rw [Mem.bump, Mem.node_update_self, Mem.node_emit, hc]
        rfl
      have hk : ∀ k, (c.setLen (toInt (c.tidata.value.len + 1))).method k = c.method k := fun k => by
        cases k <;> rfl
      exact ⟨_, rfl, hafter.local hl hr, run_node hl hc hn hk id hrun⟩
  | compare a =>
    obtain ⟨hafter, hrun⟩ := h
    simp only [tickStep, touch, Mem.node_emit]
    cases hc : m.node a with
    | none => trivial
    | some c =>
      have hafter' := hafter.local (hacc a) hr
      by_cases hv : c.tidata.key.len < c.tidata.value.len
      · simp only [hv, if_true]
        refine ⟨_, rfl, hafter', run_node (hacc a) hc hc (fun _ => rfl) (fun hi => ?_) hrun⟩
        cases hi with
        | inl hn => exact absurd hv hn
        | inr hn => exact hn
      · simp only [hv, if_false]
        exact ⟨_, rfl, hafter'⟩
  | reset a =>
    obtain ⟨hafter, hrun⟩ := h
    simp only [tickStep, touch, Mem.node_emit]
    cases hc : m.node a with
    | none => trivial
    | some c =>
      have hl : Local a (fun _ => True) m ((m.emit [.access who a]).reset a) :=
        (hacc a).trans (Local.update _ a fun _ => rfl)
      have hn : ((m.emit [.access who a]).reset a).node a = some (c.setLen 0) := by
        rw [Mem.reset, Mem.node_update_self, Mem.node_emit, hc]
        rfl
      have hk : ∀ k, (c.setLen 0).method k = c.method k := fun k => by cases k <;> rfl
      exact ⟨_, rfl, hafter.local hl hr, by simp, run_node hl hc hn hk id hrun⟩
  | method a ks =>
    obtain ⟨hafter, hks, hrun⟩ := h
    cases ks with
    | nil => exact ⟨_, rfl, hafter⟩
    | cons k ks =>
      have hks' : ∀ j ∈ ks, j ∈ [Method.seach, .howdo, .send] := fun j hj => hks j (List.mem_cons_of_mem k hj)
      simp only [tickStep, touch, Mem.node_emit]
      cases hc : m.node a with
      | none => trivial
      | some c =>
        by_cases hk : c.method k = none
        · simp only [hk, if_true]
          exact ⟨_, rfl, hafter.local (hacc a) hr, hks', run_node (hacc a) hc hc (fun _ => rfl) id hrun⟩
        · simp only [hk, if_false]
          have hl : Local a (fun _ => True) m ((m.emit [.access who a]).emit [.call who a k]) :=
            (hacc a).trans (Local.emit a _ fun _ _ => trivial)
          refine ⟨_, rfl, hafter.local hl hr, hks', ?_⟩
          cases hrun with
          | inl hi => exact hi.self hl fun d hd => ⟨d, hd, fun _ => rfl⟩
          | inr hi => exact absurd (hi c hc k (hks k (by simp))) hk
  | wait a k ks =>
    obtain ⟨hafter, hks, hi⟩ := h
    have hl : Local a (fun _ => True) m (m.methodRet who a k ans) := local_methodRet who a k ans m trivial
    have hafter' := hafter.local hl hr
    simp only [tickStep]
    split_ifs
    · exact ⟨_, rfl, hafter'⟩
    · exact ⟨_, rfl, hafter', hks, Or.inl (hi.self hl (methodRet_method who a k ans m))⟩
  | next a =>
    simp only [tickStep, touch, Mem.node_emit]
    cases hc : m.node a with
    | none => trivial
    | some c =>
      have hready := (After.local h (hacc a) hr) c.next (Mem.nxt_of_node (by rw [Mem.node_emit, hc]))
      cases hn : c.next with
      | none =>
        simp only [hn]
        trivial
      | some b =>
        rw [hn] at hready
        simp only [hn]
        exact ⟨_, rfl, hready⟩

/-- The search of freeCycdata comes to a node through its predecessor. -/
theorem freeSearch_pred {m : Mem} {a b : Addr} {n : Nat} {p BB : Option Addr}
    (h : freeSearch m a n p BB = some (some (some b))) :
    (BB = some b ∧ p = some a) ∨ m.nxt b = some (some a) := by
  induction n generalizing p BB with
  | zero => cases p <;> simp [freeSearch] at h
  | succ n ih =>
    cases p with
    | none => simp [freeSearch] at h
    | some x =>
      simp only [freeSearch] at h
      by_cases hx : x = a
      · rw [if_pos hx] at h
        simp only [Option.some.injEq] at h
        exact Or.inl ⟨h, by rw [hx]⟩
      · rw [if_neg hx] at h
        cases hn : m.nxt x with
        | none => simp [hn] at h
        | some r =>
          rw [hn] at h
          cases ih h with
          | inl he =>
            obtain ⟨hb, hr⟩ := he
            rw [Option.some.injEq] at hb
            rw [← hb, hn, hr]
            exact Or.inr rfl
          | inr he => exact Or.inr he

theorem Rising.relink {m : Mem} (h : Rising m) (a : Addr) (r : Option Addr)
    (hr : ∀ b, r = some b → a < b) : Rising (m.update a fun c => { c with next := r }) := by
  refine ⟨fun x y hxy => ?_, h.tail⟩
  by_cases hx : x = a
  · subst hx
    rw [Mem.nxt_eq, Mem.node_update_self] at hxy
    cases hc : m.node x with
    | none => simp [hc] at hxy
    | some c =>
      simp only [hc, Option.map_some, Option.some.injEq] at hxy
      exact hr y hxy
  · rw [Mem.nxt_eq, Mem.node_update_ne m _ hx, ← Mem.nxt_eq] at hxy
    exact h.next x y hxy

theorem Rising.exec {m n : Mem} (h : Rising m) {a : Addr} {s : Cleanup} (he : s.exec a m = some n) :
    Rising n := by
  by_cases hs : s.plain = true
  · exact h.keep (exec_local (E := fun _ => True) (fun _ _ => trivial) hs he).toKeep
  · simp only [Cleanup.exec] at he
    cases hc : m.node a with
    | none => simp [hc] at he
    | some c =>
      rw [hc] at he
      cases s with
      | next =>
        cases he
        exact h.relink a none (by simp)
      | free =>
        cases he
        refine ⟨fun x y hxy => ?_, h.tail⟩
        by_cases hx : x = a
        · subst hx
          simp [Mem.nxt, Heap.next, Mem.emit] at hxy
        · refine h.next x y ?_
          rw [← hxy]
          simp [Mem.nxt, Heap.next, Mem.emit, Heap.cell_free_ne m.nodes hx]
      | _ => exact absurd rfl hs

theorem Rising.unlink {m n : Mem} (h : Rising m) {a : Addr} {BB : Option Addr} {k : Nat}
    (hf : freeSearch m a k m.cychead none = some (some BB)) (hu : unlinkCycdata a BB m = some n) :
    Rising n := by
  cases BB with
  | none =>
    simp only [unlinkCycdata] at hu
    cases hh : m.cychead with
    | none => simp [hh] at hu
    | some x =>
      rw [hh] at hu
      obtain ⟨c, _, he⟩ := Option.map_eq_some_iff.mp hu
      subst he
      exact ⟨h.next, h.tail⟩
  | some b =>
    simp only [unlinkCycdata] at hu
    cases hc : m.node a with
    | none => simp [hc] at hu
    | some c =>
      cases hd : m.node b with
      | none => simp [hc, hd] at hu
      | some d =>
        simp only [hc, hd, Option.some.injEq] at hu
        subst hu
        have hba : b < a := by
          cases freeSearch_pred hf with
          | inl he => cases he.1
          | inr he => exact h.next b a he
        refine h.relink b c.next fun y hy => Nat.lt_trans hba (h.next a y ?_)
        rw [Mem.nxt_of_node hc, hy]

theorem Rising.stop {m : Mem} (h : Rising m) (who : Nat) (sig : Bool) (pc : OverPc) (ans : Ans) :
    Rising (overStep who sig pc ans m).2 := by
  have hacc : ∀ a, Rising (m.emit [.access who a]) := fun a => ⟨h.next, h.tail⟩
  have hclean : ∀ (a : Addr) (s : Cleanup) (n : Mem),
      (n = m.emit [.access who a] ∨ s.exec a (m.emit [.access who a]) = some n) → Rising n := by
    intro a s n hn
    cases hn with
    | inl hn => exact hn ▸ hacc a
    | inr hn => exact (hacc a).exec hn
  cases pc with
  | log => exact h.keep (overStep_log (E := fun _ => True) (fun _ _ => trivial) who sig ans m 0).toKeep
  | start => exact (overStep_start who sig ans m).symm ▸ h
  | before a ss =>
    cases ss with
    | nil => exact h
    | cons s ss =>
      obtain ⟨n, hn, hs⟩ := clean_cases who a s (.gameover who sig (.before a ss)) m
      rw [show (overStep who sig (.before a (s :: ss)) ans m).2 = n from hn]
      exact hclean a s n hs
  | timeDel a => exact h.keep (overStep_local who sig (.timeDel a) ans m a rfl rfl).toKeep
  | wait a => exact h.keep (overStep_local who sig (.wait a) ans m a rfl rfl).toKeep
  | after a ss =>
    cases ss with
    | nil => exact h
    | cons s ss =>
      obtain ⟨n, hn, hs⟩ := clean_cases who a s (.gameover who sig (.after a ss)) m
      rw [show (overStep who sig (.after a (s :: ss)) ans m).2 = n from hn]
      exact hclean a s n hs
  | takeNext a => exact h.keep (overStep_local who sig (.takeNext a) ans m a rfl rfl).toKeep
  | free a tem =>
    simp only [overStep]
    cases he : Cleanup.exec a m .free with
    | none => exact h
    | some n => cases tem <;> exact h.exec he
  | cycheadnext => exact ⟨h.next, fun t ht => by cases ht⟩
  | shead =>
    simp only [overStep]
    split_ifs <;> exact ⟨h.next, h.tail⟩
  | logDel =>
    simp only [overStep]
    cases he : TimeTask.logDel m.mainld m with
    | none => exact h
    | some n => exact h.keep (logDel_local (E := fun _ => True) (fun _ _ => trivial) 0 he).toKeep
  | _ => exact ⟨h.next, h.tail⟩

theorem Rising.tick {m : Mem} (h : Rising m) (who : Nat) (pc : TickPc) (ans : Ans) :
    Rising (tickStep who pc ans m).2 := by
  cases hp : pc.node with
  | some a => exact h.keep (tickStep_local who pc ans m a hp).toKeep
  | none =>
    cases pc with
    | enter => exact (tickStep_enter who ans m).symm ▸ h
    | _ => cases hp

theorem Rising.alloc {m : Mem} (h : Rising m) : Rising (cycmakeMalloc none m).2 := by
  refine ⟨fun a b hab => ?_, fun t ht => Nat.lt_succ_of_lt (h.tail t ht)⟩
  by_cases ha : a = m.nodes.brk
  · subst ha
    simp [Mem.nxt, Heap.next, cycmakeMalloc, Cycdata.zero] at hab
  · refine h.next a b ?_
    rw [← hab]
    simp [Mem.nxt, Heap.next, cycmakeMalloc, Heap.cell_alloc_ne _ _ ha]

theorem Rising.linkHead {m n : Mem} (h : Rising m) {tem : Addr}
    (ht : ∀ t, m.cycheadnext = some t → t < tem) (hl : TimeTask.linkHead tem m = some n) :
    Rising n ∧ n.nodes.brk = m.nodes.brk := by
  simp only [TimeTask.linkHead] at hl
  cases hh : m.cychead with
  | none =>
    rw [hh] at hl
    cases hl
    exact ⟨⟨h.next, h.tail⟩, rfl⟩
  | some x =>
    rw [hh] at hl
    cases hc : m.cycheadnext with
    | none => simp [hc] at hl
    | some t =>
      rw [hc] at hl
      cases hn : m.node t with
      | none => simp [hn] at hl
      | some c =>
        simp only [hn, Option.some.injEq] at hl
        subst hl
        refine ⟨h.relink t (some tem) fun b hb => ?_, rfl⟩
        cases hb
        exact ht t hc

theorem startSafe_plain {pc : MainPc} {m : Mem} (hp : pc.guarded = false) (h : Rising m) :
    StartSafe (.main pc) m := by
  refine ⟨h, ?_⟩
  cases pc with
  | linkHead _ _ _ => cases hp
  | linkTail _ _ _ => cases hp
  | _ => trivial

/-- main goes on with links that rise, and remembers that its new node is the youngest. -/
theorem mainStep_startSafe (dirch : List Byte) (pc : MainPc) (ans : Ans) (m : Mem)
    (h : StartSafe (.main pc) m) :
    ∀ g ∈ (mainStep dirch pc ans m).1.frames, StartSafe g (mainStep dirch pc ans m).2 := by
  have hr := h.1
  have hplain : pc.guards = false → pc ≠ .END →
      ∀ g ∈ (mainStep dirch pc ans m).1.frames, StartSafe g (mainStep dirch pc ans m).2 := by
    intro hg hne g hm
    obtain ⟨pc', hp, hgu⟩ := (mainStep_stays dirch pc ans m hne).frames g hm
    rw [hp]
    exact startSafe_plain (hgu hg) (hr.keep (mainStep_keep dirch pc ans m (guards_links hg)))
  cases pc with
  | END =>
    intro g hg
    simp only [mainStep, Ctl.frames, List.mem_cons, List.not_mem_nil, or_false] at hg ⊢
    cases hg with
    | inl hg => exact hg ▸ ⟨hr, trivial⟩
    | inr hg => exact hg ▸ ⟨hr, trivial⟩
  | malloc i ok k =>
    intro g hg
    cases ok with
    | false =>
      rw [List.mem_singleton.mp hg]
      exact ⟨hr, trivial⟩
    | true =>
      rw [List.mem_singleton.mp hg]
      exact ⟨hr.alloc, Nat.lt_succ_self _, hr.tail⟩
  | linkHead tem i k =>
    simp only [mainStep]
    cases hl : TimeTask.linkHead tem m with
    | none => simp [crash, Ctl.frames]
    | some n =>
      intro g hg
      obtain ⟨hrn, hbrk⟩ := hr.linkHead h.2.2 hl
      rw [List.mem_singleton.mp hg]
      exact ⟨hrn, hbrk.symm ▸ h.2.1⟩
  | linkTail tem i k =>
    intro g hg
    rw [List.mem_singleton.mp hg]
    refine ⟨⟨hr.next, fun t ht => ?_⟩, trivial⟩
    cases ht
    exact h.2
  | unlink a cycnext =>
    simp only [mainStep]
    cases hf : freeSearch m a m.nodes.brk m.cychead none with
    | none => simp [crash, Ctl.frames]
    | some q =>
      cases q with
      | none =>
        intro g hg
        rw [List.mem_singleton.mp hg]
        exact ⟨hr, trivial⟩
      | some BB =>
        simp only
        cases hu : unlinkCycdata a BB m with
        | none => simp [crash, Ctl.frames]
        | some n =>
          intro g hg
          rw [List.mem_singleton.mp hg]
          exact ⟨hr.unlink hf hu, trivial⟩
  | cleanup a ss cycnext =>
    cases ss with
    | nil =>
      intro g hg
      rw [List.mem_singleton.mp hg]
      exact ⟨hr, trivial⟩
    | cons s ss =>
      simp only [mainStep]
      cases he : s.exec a m with
      | none => simp [crash, Ctl.frames]
      | some n =>
        intro g hg
        rw [List.mem_singleton.mp hg]
        exact ⟨hr.exec he, trivial⟩
  | initAt cyctem =>
    intro g hg
    cases cyctem with
    | none =>
      rw [List.mem_singleton.mp hg]
      exact ⟨hr, trivial⟩
    | some a =>
      rw [List.mem_singleton.mp hg]
      exact ⟨hr, trivial⟩
  | method a ks =>
    cases ks with
    | nil =>
      simp only [mainStep]
      cases m.nxt a with
      | none => simp [crash, Ctl.frames]
      | some r =>
        intro g hg
        rw [List.mem_singleton.mp hg]
        exact ⟨hr, trivial⟩
    | cons k ks =>
      simp only [mainStep]
      cases m.node a with
      | none => simp [crash, Ctl.frames]
      | some c =>
        simp only
        split_ifs
        all_goals
          intro g hg
          rw [List.mem_singleton.mp hg]
          exact ⟨⟨hr.next, hr.tail⟩, trivial⟩
  | wait a k ks =>
    have hret : Rising (m.methodRet 0 a k ans) :=
      hr.keep (local_methodRet 0 a k ans m (E := fun _ => True) trivial).toKeep
    simp only [mainStep]
    split_ifs
    all_goals
      intro g hg
      rw [List.mem_singleton.mp hg]
      exact ⟨hret, trivial⟩
  | _ => exact hplain rfl (by simp)

/-- The assertions of frames other than ticks do not see what a handler does to one node. -/
theorem StartSafe.keep {E : Event → Prop} {m n : Mem} (hk : Keep E m n) {g : Frame}
    (hg : ∀ who pc, g ≠ .tick who pc) (h : StartSafe g m) : StartSafe g n := by
  refine ⟨h.1.keep hk, ?_⟩
  have h2 := h.2
  cases g with
  | tick who pc => exact absurd rfl (hg who pc)
  | gameover who sig pc => trivial
  | main pc =>
    cases pc with
    | linkHead tem i k =>
      exact ⟨hk.brk.symm ▸ h2.1, fun t ht => h2.2 t (hk.tail ▸ ht)⟩
    | linkTail tem i k => exact hk.brk.symm ▸ h2
    | _ => trivial

/-- A tick that is interrupted by a step on no node goes on as if nothing had happened. -/
theorem StartSafe.same {E : Event → Prop} {m n : Mem} (hk : ∀ a, Local a E m n) {g : Frame}
    (h : StartSafe g m) : StartSafe g n := by
  have hnode : ∀ b, n.node b = m.node b := fun b => (hk (b + 1)).other b (Nat.succ_ne_self b).symm
  have hinit : ∀ b, Inited m b → Inited n b :=
    fun b => Inited.self (hk b) fun c hc => ⟨c, (hnode b).trans hc, fun _ => rfl⟩
  have hready : ∀ p, Ready m p → Ready n p := by
    intro p hp k b r hs
    rw [(hk 0).nxt] at hs
    cases hp k b r hs with
    | inl hi => exact Or.inl (hinit b hi)
    | inr hi => exact Or.inr fun c hc => hi c ((hnode b).symm.trans hc)
  have hafter : ∀ a, After m a → After n a := by
    intro a ha r hr
    rw [(hk 0).nxt] at hr
    exact hready r (ha r hr)
  have hor : ∀ (a : Addr) (P : Cycdata → Prop), (Inited m a ∨ ∀ c, m.node a = some c → P c) →
      Inited n a ∨ ∀ c, n.node a = some c → P c := by
    intro a P hp
    cases hp with
    | inl hi => exact Or.inl (hinit a hi)
    | inr hi => exact Or.inr fun c hc => hi c ((hnode a).symm.trans hc)
  cases g with
  | main pc => exact h.keep (hk 0).toKeep (by simp)
  | gameover who sig pc => exact h.keep (hk 0).toKeep (by simp)
  | tick who pc =>
    refine ⟨h.1.keep (hk 0).toKeep, ?_⟩
    have h2 : TickSafe m pc := h.2
    cases pc with
    | enter =>
      have hn : Ready n m.cychead := hready m.cychead h2
      rw [← (hk 0).head] at hn
      exact hn
    | period a => exact hready _ h2
    | bump a => exact ⟨hafter a h2.1, hor a _ h2.2⟩
    | compare a => exact ⟨hafter a h2.1, hor a _ h2.2⟩
    | reset a => exact ⟨hafter a h2.1, hor a _ h2.2⟩
    | method a ks => exact ⟨hafter a h2.1, h2.2.1, hor a _ h2.2.2⟩
    | wait a k ks => exact ⟨hafter a h2.1, h2.2.1, hinit a h2.2.2⟩
    | next a => exact hafter a h2

theorem enter_local {E : Event → Prop} (m : Mem) (k : Nat) (a : Addr) :
    Local a E m { m with signals := k } :=
  ⟨⟨rfl, rfl, rfl, rfl, [], by simp, by simp⟩, fun _ _ => rfl⟩

def Frame.isTick : Frame → Bool
  | .tick _ _ => true
  | _ => false

theorem timerReady_sits (dirch : List Byte) : (daemon dirch).Sits TimerReady
    fun f g => f.above g = true ∧ g.isTick = false := by
  have hs := daemon_sits dirch TimerReady
  refine ⟨?_, ?_, ?_⟩
  · intro f ans m g hfg h hh
    exact ⟨hs.step f ans m g hfg.1 h hh, hfg.2⟩
  · intro f ans m g h hc
    refine ⟨hs.call f ans m g h hc, ?_⟩
    rw [(daemon_call dirch hc).1]
    rfl
  · intro c s hok hb g hg
    refine ⟨hs.enter c s hok hb g hg, ?_⟩
    cases s with
    | usr1 => exact hok.elim
    | alarm =>
      have hblk := hb g hg
      cases g with
      | tick who pc => cases hblk
      | main pc => rfl
      | gameover who sig pc => rfl

theorem startSafe_keeps (dirch : List Byte) : (daemon dirch).Keeps TimerReady Frame.final
    (fun f g => f.above g = true ∧ g.isTick = false) StartSafe := by
  refine ⟨timerReady_sits dirch, ?_, ?_, ?_, daemon_final dirch⟩
  · intro f ans m h g hg
    cases f with
    | main pc => exact mainStep_startSafe dirch pc ans m h g hg
    | tick who pc =>
      obtain ⟨pc', hp, hs⟩ := Ctl.Stays.frames (tickStep_safe who pc ans m h.1 h.2) g hg
      rw [hp]
      exact ⟨h.1.tick who pc ans, hs⟩
    | gameover who sig pc =>
      obtain ⟨pc', hp⟩ := (overStep_stays who sig pc ans m).frames g hg
      rw [hp]
      exact ⟨h.1.stop who sig pc ans, trivial⟩
  · intro f ans m h hf _ g hfg hg
    cases f with
    | main pc => cases hfg.1
    | tick who pc =>
      have hne : ∀ w q, g ≠ .tick w q := by
        intro w q he
        subst he
        cases hfg.2
      cases hp : pc.node with
      | some a => exact hg.keep (tickStep_local who pc ans m a hp).toKeep hne
      | none =>
        cases pc with
        | enter => exact (tickStep_enter who ans m).symm ▸ hg
        | _ => cases hp
    | gameover who sig pc =>
      cases pc with
      | log => exact hg.same fun a => overStep_log (E := fun _ => True) (fun _ _ => trivial) who sig ans m a
      | start => exact (overStep_start who sig ans m).symm ▸ hg
      | _ => cases hf
  · intro c s f fs hst hok hf
    cases s with
    | usr1 => exact hok.elim
    | alarm =>
      have hl : ∀ a, Local a (fun _ => True) c.mem { c.mem with signals := c.mem.signals + 1 } :=
        enter_local c.mem _
      have hnew : StartSafe (.tick (c.mem.signals + 1) .enter) c.mem := ⟨hf.1, hok⟩
      exact ⟨hnew.same hl, fun g hg => hg.same hl⟩

/-- In every run whose timer signals come while each module on the list is initialised or
passed by, a module whose seach, howdo or send is being called has been initialised. -/
theorem cycleTimeMethod_after_init (dirch : List Byte) (c : Config Frame Mem)
    (hr : (daemon dirch).Reach TimerReady daemonStart c) (who : Nat) (a : Addr) (k : Method)
    (ks : List Method) (hc : .tick who (.wait a k ks) ∈ c.stack) : Inited c.mem a := by
  have h0 : StartSafe (.main .loadFile) Mem.init := by
    refine ⟨⟨fun a b hab => ?_, fun t ht => by cases ht⟩, trivial⟩
    simp [Mem.nxt, Heap.next, Mem.init] at hab
  have hp := (timerReady_sits dirch).reach hr (by simp [daemonStart])
  have hJ := (startSafe_keeps dirch).reach hr
    (by simpa [daemonStart, Machine.alive, Frame.final] using h0) (by simp [daemonStart])
  obtain ⟨f, fs, hst⟩ := List.exists_cons_of_ne_nil (List.ne_nil_of_mem hc)
  rw [hst] at hp hJ hc
  cases List.mem_cons.mp hc with
  | inl he =>
    have hsafe := hJ f (Machine.alive_top f fs)
    rw [← he] at hsafe
    exact hsafe.2.2.2
  | inr hm => cases ((List.pairwise_cons.mp hp).1 _ hm).2

theorem ready_of_chain {m : Mem} {p : Option Addr} {l : List Addr} (h : Chain m.nxt p l)
    (hl : ∀ b ∈ l, Inited m b ∨ Idle m b) : Ready m p := by
  intro k b r hs
  induction k generalizing p l with
  | nil =>
    obtain ⟨hp, q, hq, _⟩ := hs
    subst hp
    obtain ⟨t, _, ht, _, _⟩ := chain_some h
    exact hl b (by simp [ht])
  | cons x k ih =>
    obtain ⟨hp, q, hq, hs⟩ := hs
    subst hp
    obtain ⟨t, s, ht, hn, hc⟩ := chain_some h
    rw [hq, Option.some.injEq] at hn
    exact ih (hn ▸ hc) (fun y hy => hl y (by simp [ht, hy])) hs

def Frame.ticking : Frame → Option (Nat × Addr × Method × List Method)
  | .tick who (.wait a k ks) => some (who, a, k, ks)
  | _ => none

theorem ticking_eq {f : Frame} {who : Nat} {a : Addr} {k : Method} {ks : List Method}
    (h : f.ticking = some (who, a, k, ks)) : f = .tick who (.wait a k ks) := by
  cases f with
  | main pc => cases h
  | gameover w sig pc => cases h
  | tick w pc =>
    cases pc with
    | wait b j js =>
      cases h
      rfl
    | _ => cases h

def tickToSeach : List (Label Ans Signal) :=
  .signal .alarm :: List.replicate 6 (.run (world fun _ => some 0))

theorem cycleTimeMethod_after_init_paused : ∃ c : Config Frame Mem, ∃ k ks,
    (daemon []).Reach TimerReady daemonStart c ∧ .tick 1 (.wait 0 k ks) ∈ c.stack ∧ Inited c.mem 0 := by
  have hok : ∀ d a, TimerReady d (.run a) := fun _ _ => trivial
  have hx : (((daemon []).exec (paused fun _ => some 0) daemonStart).bind fun c =>
      ((daemon []).exec tickToSeach c).map fun d =>
        ((c.mem.cychead, c.mem.nxt 0), c.mem.trace, d.stack.map Frame.ticking)) =
        some ((some 0, some none),
          [.opendir, .closedir, .call 0 0 .init, .ret 0 0 .init 0, .call 0 0 .login, .ret 0 0 .login 0],
          [some (1, 0, .seach, [.howdo, .send]), none]) := by
    rfl
  obtain ⟨c, hc, hx⟩ := Option.bind_eq_some_iff.mp hx
  obtain ⟨e, he, hx⟩ := Option.map_eq_some_iff.mp hx
  simp only [Prod.mk.injEq] at hx
  obtain ⟨⟨hhead, hnxt⟩, htr, hst⟩ := hx
  obtain ⟨d, hd, he⟩ := Option.bind_eq_some_iff.mp he
  obtain ⟨f, fs, hfs, hf, _⟩ := List.map_eq_cons_iff.mp hst
  have hr₁ := Machine.reach_of_runs (paused_run _) hok Machine.Reach.refl hc
  have hinit : Inited c.mem 0 := by
    obtain ⟨n, hn, _⟩ := Option.map_eq_some_iff.mp hnxt
    refine ⟨n, hn, fun k hk _ => ⟨0, 0, ?_, le_refl 0⟩⟩
    rw [htr]
    simp only [List.mem_cons, List.not_mem_nil, or_false] at hk
    cases hk with
    | inl hk => simp [hk]
    | inr hk => simp [hk]
  have hready : TimerReady c (.signal .alarm) := by
    refine ready_of_chain (l := [0]) ⟨hhead, none, hnxt, rfl⟩ fun b hb => ?_
    rw [List.mem_singleton.mp hb]
    exact Or.inl hinit
  have hr := Machine.reach_of_runs (by simp) hok (hr₁.step hready hd) he
  have hm : .tick 1 (.wait 0 .seach [.howdo, .send]) ∈ e.stack := by
    rw [hfs, ticking_eq hf]
    simp
  exact ⟨e, .seach, [.howdo, .send], hr, hm,
    cycleTimeMethod_after_init [] e hr 1 0 .seach [.howdo, .send] hm⟩

/-- A timer signal between loadLib and TimeInit calls seach of a module whose init has not run. -/
theorem cycleTimeMethod_before_init : ∃ c : Config Frame Mem,
    (daemon []).Reach (fun _ l => l ≠ .signal .usr1) daemonStart c ∧
      ∃ who a k ks, .tick who (.wait a k ks) ∈ c.stack ∧ ¬ Inited c.mem a := by
  have hx : (((daemon []).exec (loads (fun _ => some 0) ++ tickToSeach) daemonStart).map fun c =>
      (c.stack.map Frame.ticking, (c.mem.node 0).map Cycdata.init, c.mem.trace)) =
      some ([some (1, 0, .seach, [.howdo, .send]), none], some (some 0),
        [.opendir, .access 1 0, .access 1 0, .access 1 0, .access 1 0, .access 1 0, .call 1 0 .seach]) := by
    rfl
  obtain ⟨c, hc, hx⟩ := Option.map_eq_some_iff.mp hx
  simp only [Prod.mk.injEq] at hx
  obtain ⟨hst, hnode, htr⟩ := hx
  obtain ⟨f, fs, hfs, hf, _⟩ := List.map_eq_cons_iff.mp hst
  refine ⟨c, ?_, 1, 0, .seach, [.howdo, .send], ?_, ?_⟩
  · refine Machine.reach_of_exec _ (fun l hl d => ?_) Machine.Reach.refl hc
    simp only [loads, tickToSeach, List.mem_append, List.mem_replicate, List.mem_cons] at hl
    obtain (hl | hl | hl) := hl
    · simp [hl.2]
    · simp [hl]
    · simp [hl.2]
  · rw [hfs, ticking_eq hf]
    simp
  · intro hi
    obtain ⟨n, hn, hall⟩ := hi
    rw [hn, Option.map_some, Option.some.injEq] at hnode
    obtain ⟨w, r, hm, _⟩ := hall .init (by simp) (by simp [Cycdata.method, hnode])
    rw [htr] at hm
    simp at hm

end TimeTask
