import TimeTask.Effects
import TimeTask.Reentry

/-! gameover against the timer signal, a second stop signal and main. -/
namespace TimeTask
open Lib

/-- The deldate of the module has been called, or its node was freed. -/
def Dead (tr : List Event) (a : Addr) : Prop := (∃ w, Event.call w a .deldate ∈ tr) ∨ Event.free a ∈ tr

/-- The events that make a module dead. -/
def Event.ends : Event → Bool
  | .call _ _ .deldate => true
  | .free _ => true
  | _ => false

/-- What may come after the trace `tr`: no task and no release of a dead module, and no read of
it except by the invocation of gameover that called its deldate and has not freed it yet. -/
def Follows (tr : List Event) : Event → Prop
  | .call _ a k => k ∈ [Method.seach, .howdo, .send, .deldate] → ¬ Dead tr a
  | .access w a => Event.free a ∉ tr ∧ ∀ w', Event.call w' a .deldate ∈ tr → w' = w
  | .free a => Event.free a ∉ tr
  | _ => True

def TraceSafe (tr : List Event) : Prop := ∀ pre e post, tr = pre ++ e :: post → Follows pre e

theorem dead_append {tr es : List Event} {a : Addr} : Dead (tr ++ es) a ↔ Dead tr a ∨ Dead es a := by
  simp only [Dead, List.mem_append]
  constructor
  · intro h
    cases h with
    | inl h =>
      obtain ⟨w, hw⟩ := h
      cases hw with
      | inl hw => exact Or.inl (Or.inl ⟨w, hw⟩)
      | inr hw => exact Or.inr (Or.inl ⟨w, hw⟩)
    | inr h =>
      cases h with
      | inl hf => exact Or.inl (Or.inr hf)
      | inr hf => exact Or.inr (Or.inr hf)
  · intro h
    cases h with
    | inl h =>
      cases h with
      | inl hw => exact Or.inl (hw.imp fun _ => Or.inl)
      | inr hf => exact Or.inr (Or.inl hf)
    | inr h =>
      cases h with
      | inl hw => exact Or.inl (hw.imp fun _ => Or.inr)
      | inr hf => exact Or.inr (Or.inr hf)

theorem TraceSafe.nil : TraceSafe [] := by
  intro pre e post h
  cases pre <;> cases h

theorem TraceSafe.snoc {tr : List Event} (h : TraceSafe tr) {e : Event} (he : Follows tr e) :
    TraceSafe (tr ++ [e]) := by
  intro pre x post hx
  cases List.eq_nil_or_concat post with
  | inl hp =>
    subst hp
    obtain ⟨h1, h2⟩ := List.append_inj' hx rfl
    cases h2
    exact h1 ▸ he
  | inr hp =>
    obtain ⟨q, y, hq⟩ := hp
    subst hq
    rw [List.concat_eq_append, ← List.cons_append, ← List.append_assoc] at hx
    exact h pre x q (List.append_inj' hx rfl).1

theorem follows_append {tr es : List Event} (h : ∀ e ∈ es, e.ends = false) (e : Event) :
    Follows (tr ++ es) e ↔ Follows tr e := by
  have hcall : ∀ w a, Event.call w a .deldate ∈ tr ++ es ↔ Event.call w a .deldate ∈ tr := by
    intro w a
    rw [List.mem_append, or_iff_left]
    intro hm
    cases h _ hm
  have hfree : ∀ a, Event.free a ∈ tr ++ es ↔ Event.free a ∈ tr := by
    intro a
    rw [List.mem_append, or_iff_left]
    intro hm
    cases h _ hm
  have hdead : ∀ a, Dead (tr ++ es) a ↔ Dead tr a := by
    intro a
    simp only [Dead, hcall, hfree]
  cases e <;> simp only [Follows, hdead, hcall, hfree]

theorem TraceSafe.append {tr : List Event} (h : TraceSafe tr) (es : List Event)
    (he : ∀ e ∈ es, Follows tr e ∧ e.ends = false) : TraceSafe (tr ++ es) := by
  induction es using List.reverseRecOn with
  | nil => simpa using h
  | append_singleton es e ih =>
    have hes : ∀ x ∈ es, x.ends = false := fun x hx => (he x (by simp [hx])).2
    rw [← List.append_assoc]
    refine (ih fun x hx => he x (by simp [hx])).snoc ?_
    exact (follows_append hes e).mpr (he e (by simp)).1

theorem quiet_follows {tr : List Event} {e : Event} (h : e.quiet = true) :
    Follows tr e ∧ e.ends = false := by
  cases e with
  | call w a k => cases h
  | access w a => cases h
  | free a => cases h
  | _ => exact ⟨trivial, rfl⟩

/-- The history agrees with the heap. -/
structure Book (m : Mem) : Prop where
  safe : TraceSafe m.trace
  freed : ∀ a, Event.free a ∈ m.trace → m.nxt a = none
  old : ∀ a, Dead m.trace a → a < m.nodes.brk

/-- From the pointer on, the list is intact and none of its modules is dead. -/
def Alive (m : Mem) (p : Option Addr) : Prop :=
  ∃ l, Chain m.nxt p l ∧ ∀ b ∈ l, ¬ Dead m.trace b

def HeadDead (m : Mem) : Prop := ∃ a, m.cychead = some a ∧ Dead m.trace a

/-- Behind `a` come the modules from `r` on, none of them dead. -/
def Behind (m : Mem) (a : Addr) (r : Option Addr) : Prop :=
  m.nxt a = some r ∧ ∃ l, Chain m.nxt r l ∧ a ∉ l ∧ ∀ b ∈ l, ¬ Dead m.trace b

/-- If `a` is dead then by the hand of the invocation `w`, which has not freed it. -/
def Mine (m : Mem) (w : Nat) (a : Addr) : Prop :=
  Event.free a ∉ m.trace ∧ ∀ w', Event.call w' a .deldate ∈ m.trace → w' = w

def OverSafe (m : Mem) (w : Nat) : OverPc → Prop
  | .log => Alive m m.cychead
  | .start => Alive m m.cychead
  | .before a ss => ss.all Cleanup.plain = true ∧ Alive m (some a) ∧ (m.cychead = some a ∨ HeadDead m)
  | .timeDel a => Alive m (some a) ∧ (m.cychead = some a ∨ HeadDead m)
  | .wait a => Mine m w a ∧ (∃ r, Behind m a r) ∧ (m.cychead = some a ∨ HeadDead m)
  | .after a ss => ss.all Cleanup.plain = true ∧ Mine m w a ∧ (∃ r, Behind m a r) ∧
      (m.cychead = some a ∨ HeadDead m)
  | .takeNext a => Mine m w a ∧ (∃ r, Behind m a r) ∧ (m.cychead = some a ∨ HeadDead m)
  | .free a tem => Mine m w a ∧ Behind m a tem ∧ (m.cychead = some a ∨ HeadDead m)
  | .cychead => HeadDead m
  | _ => m.cychead = none

def TickPc.tasks : TickPc → List Method
  | .method _ ks => ks
  | .wait _ _ ks => ks
  | _ => []

def MainSafe (m : Mem) : MainPc → Prop
  | .linkHead tem _ _ => m.nxt tem = some none ∧ ¬ Dead m.trace tem ∧ ∀ l, m.ListIs l → tem ∉ l
  | .cleanup a _ _ => ∀ l, m.ListIs l → a ∉ l
  | .method _ ks => ∀ k ∈ ks, k = .init ∨ k = .login
  | .wait _ _ ks => ∀ k ∈ ks, k = .init ∨ k = .login
  | _ => True

/-- The assertion of each frame. -/
def TearSafe (f : Frame) (m : Mem) : Prop :=
  Book m ∧ match f with
    | .main pc => Alive m m.cychead ∧ MainSafe m pc
    | .tick _ pc => Alive m m.cychead ∧ (∀ a, pc.node = some a → Alive m (some a)) ∧
        .deldate ∉ pc.tasks
    | .gameover w _ pc => OverSafe m w pc

/-- Nothing that the assertions speak about has changed, and the trace is still safe. -/
structure Calm (m n : Mem) : Prop where
  nxt : n.nxt = m.nxt
  head : n.cychead = m.cychead
  brk : n.nodes.brk = m.nodes.brk
  ends : ∀ e : Event, e.ends = true → (e ∈ n.trace ↔ e ∈ m.trace)
  safe : TraceSafe n.trace

theorem Calm.dead {m n : Mem} (h : Calm m n) (a : Addr) : Dead n.trace a ↔ Dead m.trace a := by
  simp only [Dead, h.ends (.call _ a .deldate) rfl, h.ends (.free a) rfl]

theorem Calm.keep {E : Event → Prop} {m n : Mem} (hm : TraceSafe m.trace) (h : Keep E m n)
    (hE : ∀ e, E e → Follows m.trace e ∧ e.ends = false) : Calm m n := by
  obtain ⟨es, he, hes⟩ := h.trace
  refine ⟨h.nxt, h.head, h.brk, fun e hend => ?_, ?_⟩
  · rw [he, List.mem_append, or_iff_left]
    intro hm
    rw [(hE e (hes e hm)).2] at hend
    cases hend
  · rw [he]
    exact hm.append es fun e hm => hE e (hes e hm)

theorem Alive.calm {m n : Mem} (h : Calm m n) {p : Option Addr} (ha : Alive m p) : Alive n p := by
  obtain ⟨l, hl, hd⟩ := ha
  exact ⟨l, h.nxt ▸ hl, fun b hb => (h.dead b).not.mpr (hd b hb)⟩

theorem Book.calm {m n : Mem} (h : Calm m n) (hb : Book m) : Book n := by
  refine ⟨h.safe, fun a ha => ?_, fun a ha => ?_⟩
  · rw [h.nxt]
    exact hb.freed a ((h.ends (.free a) rfl).mp ha)
  · rw [h.brk]
    exact hb.old a ((h.dead a).mp ha)

theorem HeadDead.calm {m n : Mem} (h : Calm m n) (hd : HeadDead m) : HeadDead n := by
  obtain ⟨a, ha, hdead⟩ := hd
  exact ⟨a, h.head.trans ha, (h.dead a).mpr hdead⟩

theorem Behind.calm {m n : Mem} (h : Calm m n) {a : Addr} {r : Option Addr} (hb : Behind m a r) :
    Behind n a r := by
  obtain ⟨hr, l, hl, ha, hd⟩ := hb
  exact ⟨h.nxt ▸ hr, l, h.nxt ▸ hl, ha, fun b hb => (h.dead b).not.mpr (hd b hb)⟩

theorem Mine.calm {m n : Mem} (h : Calm m n) {w : Nat} {a : Addr} (hm : Mine m w a) : Mine n w a :=
  ⟨(h.ends (.free a) rfl).not.mpr hm.1, fun w' hw => hm.2 w' ((h.ends (.call w' a .deldate) rfl).mp hw)⟩

theorem OverSafe.calm {m n : Mem} (h : Calm m n) {w : Nat} {pc : OverPc} (ho : OverSafe m w pc) :
    OverSafe n w pc := by
  have hat : ∀ a, (m.cychead = some a ∨ HeadDead m) → n.cychead = some a ∨ HeadDead n := by
    intro a ha
    cases ha with
    | inl ha => exact Or.inl (h.head.trans ha)
    | inr ha => exact Or.inr (ha.calm h)
  have halive : Alive m m.cychead → Alive n n.cychead := by
    intro ha
    have hn := ha.calm h
    rw [← h.head] at hn
    exact hn
  have hbehind : ∀ a, (∃ r, Behind m a r) → ∃ r, Behind n a r :=
    fun a hr => hr.imp fun _ hb => hb.calm h
  cases pc with
  | log => exact halive ho
  | start => exact halive ho
  | before a ss => exact ⟨ho.1, ho.2.1.calm h, hat a ho.2.2⟩
  | timeDel a => exact ⟨ho.1.calm h, hat a ho.2⟩
  | wait a => exact ⟨ho.1.calm h, hbehind a ho.2.1, hat a ho.2.2⟩
  | after a ss => exact ⟨ho.1, ho.2.1.calm h, hbehind a ho.2.2.1, hat a ho.2.2.2⟩
  | takeNext a => exact ⟨ho.1.calm h, hbehind a ho.2.1, hat a ho.2.2⟩
  | free a tem => exact ⟨ho.1.calm h, ho.2.1.calm h, hat a ho.2.2⟩
  | cychead => exact HeadDead.calm h ho
  | _ => exact h.head.trans ho

theorem listIs_calm {m n : Mem} (h : Calm m n) {l : List Addr} : n.ListIs l ↔ m.ListIs l := by
  rw [Mem.ListIs, Mem.ListIs, h.nxt, h.head]

theorem MainSafe.calm {m n : Mem} (h : Calm m n) {pc : MainPc} (hm : MainSafe m pc) : MainSafe n pc := by
  cases pc with
  | linkHead tem i k =>
    exact ⟨h.nxt ▸ hm.1, (h.dead tem).not.mpr hm.2.1, fun l hl => hm.2.2 l ((listIs_calm h).mp hl)⟩
  | cleanup a ss cycnext => exact fun l hl => hm l ((listIs_calm h).mp hl)
  | method a ks => exact hm
  | wait a k ks => exact hm
  | _ => trivial

theorem TearSafe.calm {m n : Mem} (h : Calm m n) {g : Frame} (hg : TearSafe g m) : TearSafe g n := by
  have halive : Alive m m.cychead → Alive n n.cychead := by
    intro ha
    have hn := ha.calm h
    rw [← h.head] at hn
    exact hn
  obtain ⟨hb, hg⟩ := hg
  refine ⟨hb.calm h, ?_⟩
  cases g with
  | main pc => exact ⟨halive hg.1, hg.2.calm h⟩
  | tick who pc => exact ⟨halive hg.1, fun a ha => (hg.2.1 a ha).calm h, hg.2.2⟩
  | gameover who sig pc => exact OverSafe.calm h hg

theorem tickStep_calm (who : Nat) (pc : TickPc) (ans : Ans) (m : Mem)
    (h : TearSafe (.tick who pc) m) : Calm m (tickStep who pc ans m).2 := by
  obtain ⟨hb, halive, hat, htasks⟩ := h
  cases hp : pc.node with
  | none =>
    cases pc with
    | enter =>
      rw [tickStep_enter]
      exact Calm.keep hb.safe (Keep.refl (E := fun _ => False) m) fun _ he => he.elim
    | _ => cases hp
  | some a =>
    obtain ⟨l, hl, hd⟩ := hat a hp
    obtain ⟨k, r, hlk, _, _⟩ := chain_some hl
    have ha : ¬ Dead m.trace a := hd a (by simp [hlk])
    refine Calm.keep hb.safe (tickStep_local who pc ans m a hp).toKeep fun e he => ?_
    cases he with
    | access =>
      refine ⟨⟨fun hf => ha (Or.inr hf), fun w hw => ?_⟩, rfl⟩
      exact absurd (Or.inl ⟨w, hw⟩) ha
    | call k ks hk =>
      refine ⟨fun _ => ha, ?_⟩
      subst hk
      cases k with
      | deldate => exact absurd (by simp [TickPc.tasks]) htasks
      | _ => rfl
    | ret k r => exact ⟨trivial, rfl⟩

theorem Alive.behind {m : Mem} {a : Addr} {c : Cycdata} (h : Alive m (some a))
    (hc : m.node a = some c) : ¬ Dead m.trace a ∧ Behind m a c.next := by
  obtain ⟨l, hl, hd⟩ := h
  have hnd := chain_nodup hl
  obtain ⟨k, r, hlk, hr, hk⟩ := chain_some hl
  subst hlk
  rw [Mem.nxt_of_node hc, Option.some.injEq] at hr
  subst hr
  exact ⟨hd a (by simp), Mem.nxt_of_node hc, k, hk, (List.nodup_cons.mp hnd).1,
    fun b hb => hd b (List.mem_cons_of_mem a hb)⟩

theorem Behind.alive {m : Mem} {a : Addr} {r : Option Addr} (h : Behind m a r) : Alive m r := by
  obtain ⟨_, l, hl, _, hd⟩ := h
  exact ⟨l, hl, hd⟩

theorem tickStep_goes (who : Nat) (pc : TickPc) (ans : Ans) (m : Mem) (ht : .deldate ∉ pc.tasks) :
    (tickStep who pc ans m).1.Stays fun g => ∃ pc', g = .tick who pc' ∧ .deldate ∉ pc'.tasks ∧
      ∀ b, pc'.node = some b → pc.node = some b ∨ (pc = .enter ∧ m.cychead = some b) ∨
        ∃ a c, pc = .next a ∧ m.node a = some c ∧ c.next = some b := by
  have hnone : Method.deldate ∉ ([] : List Method) := by simp
  cases pc with
  | enter =>
    cases hc : m.cychead with
    | none =>
      simp only [tickStep, hc]
      trivial
    | some a =>
      simp only [tickStep, hc]
      exact ⟨_, rfl, hnone, fun b hb => Or.inr (Or.inl ⟨trivial, hb⟩)⟩
  | period a =>
    refine touch_stays fun c _ m' => ?_
    split_ifs <;> exact ⟨_, rfl, hnone, fun b hb => Or.inl hb⟩
  | bump a => exact touch_stays fun c _ m' => ⟨_, rfl, hnone, fun b hb => Or.inl hb⟩
  | compare a =>
    refine touch_stays fun c _ m' => ?_
    split_ifs <;> exact ⟨_, rfl, hnone, fun b hb => Or.inl hb⟩
  | reset a => exact touch_stays fun c _ m' => ⟨_, rfl, by simp [TickPc.tasks], fun b hb => Or.inl hb⟩
  | method a ks =>
    cases ks with
    | nil => exact ⟨_, rfl, hnone, fun b hb => Or.inl hb⟩
    | cons k ks =>
      have hks : Method.deldate ∉ ks := fun hm => ht (List.mem_cons_of_mem k hm)
      refine touch_stays fun c _ m' => ?_
      split_ifs <;> exact ⟨_, rfl, hks, fun b hb => Or.inl hb⟩
  | wait a k ks =>
    simp only [tickStep]
    split_ifs
    · exact ⟨_, rfl, hnone, fun b hb => Or.inl hb⟩
    · exact ⟨_, rfl, ht, fun b hb => Or.inl hb⟩
  | next a =>
    refine touch_stays fun c hc m' => ?_
    cases hn : c.next with
    | none => trivial
    | some b => exact ⟨_, rfl, hnone, fun d hd => Or.inr (Or.inr ⟨a, c, rfl, hc, hn.trans hd⟩)⟩

/-- One statement of a tick keeps its assertion. -/
theorem tickStep_tearSafe (who : Nat) (pc : TickPc) (ans : Ans) (m : Mem)
    (h : TearSafe (.tick who pc) m) :
    ∀ g ∈ (tickStep who pc ans m).1.frames, TearSafe g (tickStep who pc ans m).2 := by
  intro g hg
  have hcalm := tickStep_calm who pc ans m h
  have hframe := h.calm hcalm
  obtain ⟨pc', hp, htasks, hnode⟩ := (tickStep_goes who pc ans m h.2.2.2).frames g hg
  subst hp
  refine ⟨hframe.1, hframe.2.1, fun b hb => ?_, htasks⟩
  cases hnode b hb with
  | inl hsame => exact hframe.2.2.1 b hsame
  | inr hrest =>
    cases hrest with
    | inl henter => exact (henter.2 ▸ h.2.1).calm hcalm
    | inr hnext =>
      obtain ⟨a, c, hpc, hc, hn⟩ := hnext
      have ha := h.2.2.1 a (by rw [hpc]; rfl)
      exact (hn ▸ (ha.behind hc).2.alive).calm hcalm

theorem overStep_goes (who : Nat) (sig : Bool) (pc : OverPc) (ans : Ans) (m : Mem) (a : Addr)
    (ha : pc.node = some a) :
    (overStep who sig pc ans m).1.Stays fun g => ∃ pc', g = .gameover who sig pc' ∧
      match pc with
      | .before _ [] => pc' = .timeDel a
      | .before _ (_ :: ss) => pc' = .before a ss
      | .timeDel _ => ∃ c, m.node a = some c ∧
          ((c.deldate = none ∧ pc' = .after a [.dlclose, .fdlib]) ∨ (c.deldate ≠ none ∧ pc' = .wait a))
      | .wait _ => pc' = .after a [.dlclose, .fdlib]
      | .after _ [] => pc' = .takeNext a
      | .after _ (_ :: ss) => pc' = .after a ss
      | .takeNext _ => ∃ c, m.node a = some c ∧ pc' = .free a c.next
      | _ => True := by
  cases pc with
  | before b ss =>
    cases ha
    cases ss with
    | nil => exact ⟨_, rfl, rfl⟩
    | cons s ss => exact touch_stays fun c _ m' => exec_stays ⟨_, rfl, rfl⟩ m' (s.exec a m')
  | timeDel b =>
    cases ha
    refine touch_stays fun c hc m' => ?_
    by_cases hd : c.deldate = none
    · simp only [hd, if_true]
      exact ⟨_, rfl, c, hc, Or.inl ⟨hd, rfl⟩⟩
    · simp only [hd, if_false]
      exact ⟨_, rfl, c, hc, Or.inr ⟨hd, rfl⟩⟩
  | wait b =>
    cases ha
    exact ⟨_, rfl, rfl⟩
  | after b ss =>
    cases ha
    cases ss with
    | nil => exact ⟨_, rfl, rfl⟩
    | cons s ss => exact touch_stays fun c _ m' => exec_stays ⟨_, rfl, rfl⟩ m' (s.exec a m')
  | takeNext b =>
    cases ha
    exact touch_stays fun c hc m' => ⟨_, rfl, c, hc, rfl⟩
  | _ => cases ha

theorem mine_of_alive {m : Mem} {a : Addr} (h : ¬ Dead m.trace a) (w : Nat) : Mine m w a :=
  ⟨fun hf => h (Or.inr hf), fun w' hw => absurd (Or.inl ⟨w', hw⟩) h⟩

/-- The steps of gameover at a node, that of TimeDel apart, end no module. -/
theorem overStep_calm (who : Nat) (sig : Bool) (pc : OverPc) (ans : Ans) {m : Mem} {a : Addr}
    (hb : Book m) (ha : pc.node = some a) (hne : pc ≠ .timeDel a) (hp : pc.plain = true)
    (hm : Mine m who a) : Calm m (overStep who sig pc ans m).2 := by
  refine Calm.keep hb.safe (overStep_local who sig pc ans m a ha hp).toKeep fun e he => ?_
  cases he with
  | access => exact ⟨hm, rfl⟩
  | call h => exact absurd h hne
  | quiet e h => exact quiet_follows h

/-- TimeDel at the node `a`: the module is dead from the call of its deldate on. -/
theorem timeDel_safe (who : Nat) (sig : Bool) {m : Mem} {a : Addr} {c : Cycdata} (hb : Book m)
    (hc : m.node a = some c) (h : Alive m (some a)) (hat : m.cychead = some a ∨ HeadDead m) :
    TearSafe (.gameover who sig (.wait a)) ((m.emit [.access who a]).emit [.call who a .deldate]) := by
  obtain ⟨hd, hr, l, hl, hal, hld⟩ := h.behind hc
  have htr : ((m.emit [.access who a]).emit [.call who a .deldate]).trace =
      m.trace ++ [.access who a, .call who a .deldate] := by simp [Mem.emit]
  have hmine := mine_of_alive hd who
  have hdead : ∀ b, Dead (m.trace ++ [.access who a, .call who a .deldate]) b ↔ Dead m.trace b ∨ b = a := by
    intro b
    rw [dead_append]
    simp [Dead, eq_comm]
  refine ⟨⟨?_, fun b hbm => ?_, fun b hbm => ?_⟩, ⟨?_, fun w hw => ?_⟩, ⟨c.next, hr, l, hl, hal, ?_⟩, ?_⟩
  · rw [htr, show [Event.access who a, .call who a .deldate] = [.access who a] ++ [.call who a .deldate] from rfl,
      ← List.append_assoc]
    refine (hb.safe.snoc (show Follows m.trace (.access who a) from hmine)).snoc fun _ => ?_
    rw [dead_append]
    simp [Dead] at hd ⊢
    exact hd
  · rw [htr] at hbm
    exact hb.freed b (by simpa using hbm)
  · rw [htr, hdead] at hbm
    cases hbm with
    | inl hbm => exact hb.old b hbm
    | inr hbm =>
      rw [hbm]
      exact m.nodes.lt_brk hc
  · rw [htr]
    simpa using hmine.1
  · rw [htr] at hw
    cases List.mem_append.mp hw with
    | inl hw => exact hmine.2 w hw
    | inr hw => simpa using hw
  · intro b hbl
    rw [htr, hdead]
    intro hbd
    cases hbd with
    | inl hbd => exact hld b hbl hbd
    | inr hbd => exact hal (hbd ▸ hbl)
  · cases hat with
    | inl hat => exact Or.inl hat
    | inr hat =>
      obtain ⟨x, hx, hxd⟩ := hat
      refine Or.inr ⟨x, hx, ?_⟩
      rw [htr, hdead]
      exact Or.inl hxd

/-- The node `a` is freed and gameover goes on to the rest, if there is one. -/
theorem free_safe {m n : Mem} {w : Nat} {a : Addr} {tem : Option Addr} (hb : Book m)
    (hm : Mine m w a) (hbe : Behind m a tem) (hat : m.cychead = some a ∨ HeadDead m)
    (he : Cleanup.exec a m .free = some n) : Book n ∧ Alive n tem ∧ HeadDead n := by
  obtain ⟨hr, l, hl, hal, hld⟩ := hbe
  obtain ⟨c, hc, _⟩ := Option.map_eq_some_iff.mp hr
  have hc' : m.node a = some c := hc
  simp only [Cleanup.exec, hc', Option.some.injEq] at he
  subst he
  have hnxt : ∀ b, b ≠ a → ({ m with nodes := m.nodes.free a }.emit [.free a] : Mem).nxt b = m.nxt b := by
    intro b hba
    simp [Mem.nxt, Heap.next, Mem.emit, Heap.cell_free_ne m.nodes hba]
  have hdead : ∀ b, Dead (m.trace ++ [.free a]) b ↔ Dead m.trace b ∨ b = a := by
    intro b
    rw [dead_append]
    simp [Dead]
  refine ⟨⟨hb.safe.snoc hm.1, fun b hbm => ?_, fun b hbm => ?_⟩, ⟨l, ?_, fun b hbl => ?_⟩, ?_⟩
  · by_cases hba : b = a
    · subst hba
      simp [Mem.nxt, Heap.next, Mem.emit]
    · rw [hnxt b hba]
      refine hb.freed b ?_
      have hbm' : Event.free b ∈ m.trace ++ [.free a] := hbm
      simpa [hba] using hbm'
  · cases (hdead b).mp hbm with
    | inl hbd => exact hb.old b hbd
    | inr hba =>
      rw [hba]
      exact m.nodes.lt_brk hc
  · exact chain_congr (fun b hbl => hnxt b fun hba => hal (hba ▸ hbl)) hl
  · refine (hdead b).not.mpr fun hbd => ?_
    cases hbd with
    | inl hbd => exact hld b hbl hbd
    | inr hba => exact hal (hba ▸ hbl)
  · cases hat with
    | inl hat => exact ⟨a, hat, (hdead a).mpr (Or.inr rfl)⟩
    | inr hat =>
      obtain ⟨x, hx, hxd⟩ := hat
      exact ⟨x, hx, (hdead x).mpr (Or.inl hxd)⟩

theorem overLog_calm (who : Nat) (sig : Bool) (ans : Ans) {m : Mem} (hb : Book m) :
    Calm m (overStep who sig .log ans m).2 :=
  Calm.keep hb.safe (overStep_log (fun _ h => h) who sig ans m 0).toKeep fun _ he => quiet_follows he

theorem freeFiledate_quiet (fs : List (Addr × Filedate)) : ∀ e ∈ freeFiledate fs, e.quiet = true := by
  intro e he
  obtain (⟨a, ha⟩ | ⟨a, ha⟩) := freeFiledate_events he
  all_goals exact ha ▸ rfl

/-- One statement of gameover keeps its assertion. -/
theorem overStep_tearSafe (who : Nat) (sig : Bool) (pc : OverPc) (ans : Ans) (m : Mem)
    (h : TearSafe (.gameover who sig pc) m) :
    ∀ g ∈ (overStep who sig pc ans m).1.frames, TearSafe g (overStep who sig pc ans m).2 := by
  have hcalm : ∀ a, pc.node = some a → pc ≠ .timeDel a → pc.plain = true → Mine m who a →
      Calm m (overStep who sig pc ans m).2 := fun a => overStep_calm who sig pc ans h.1
  have hcell : ∀ a, Alive m (some a) → ∃ c, m.node a = some c := by
    intro a ha
    obtain ⟨l, hl, _⟩ := ha
    obtain ⟨_, r, _, hr, _⟩ := chain_some hl
    obtain ⟨c, hc, _⟩ := Option.map_eq_some_iff.mp hr
    exact ⟨c, hc⟩
  have hquiet : ∀ {n : Mem}, Keep (fun e => e.quiet = true) m n → Calm m n :=
    fun hk => Calm.keep h.1.safe hk fun e he => quiet_follows he
  cases pc with
  | log =>
    have hn := overLog_calm who sig ans h.1
    intro g hg
    obtain ⟨pc', hpc, hs⟩ : ∃ pc', g = .gameover who sig pc' ∧ pc' = .start := by
      simp only [overStep] at hg
      cases hl : m.logLog ans.lost with
      | none => simp [hl, crash, Ctl.frames] at hg
      | some n =>
        rw [hl] at hg
        exact ⟨.start, List.mem_singleton.mp hg, rfl⟩
    subst hpc hs
    exact TearSafe.calm hn h
  | start =>
    have hs : Alive m m.cychead := h.2
    rw [overStep_start]
    simp only [overStep]
    cases hc : m.cychead with
    | none => simp [Ctl.frames]
    | some a =>
      rw [hc] at hs
      intro g hg
      rw [List.mem_singleton.mp hg]
      exact ⟨h.1, rfl, hs, Or.inl hc⟩
  | before a ss =>
    obtain ⟨hb, hp, halive, hat⟩ := h
    obtain ⟨c, hc⟩ := hcell a halive
    have hn := hcalm a rfl (by simp) hp (mine_of_alive (halive.behind hc).1 who)
    intro g hg
    obtain ⟨pc', hpc, hnext⟩ := (overStep_goes who sig (.before a ss) ans m a rfl).frames g hg
    subst hpc
    refine TearSafe.calm hn ⟨hb, ?_⟩
    cases ss with
    | nil =>
      subst hnext
      exact ⟨halive, hat⟩
    | cons s ss =>
      subst hnext
      exact ⟨List.all_eq_true.mpr fun x hx => List.all_eq_true.mp hp x (List.mem_cons_of_mem s hx),
        halive, hat⟩
  | timeDel a =>
    obtain ⟨hb, halive, hat⟩ := h
    obtain ⟨c, hc⟩ := hcell a halive
    simp only [overStep, touch, Mem.node_emit, hc]
    by_cases hd : c.deldate = none
    · simp only [hd, if_true]
      intro g hg
      rw [List.mem_singleton.mp hg]
      have hm := mine_of_alive (halive.behind hc).1 who
      have hn : Calm m (m.emit [.access who a]) := by
        refine Calm.keep hb.safe (Keep.emit m (E := fun e => e = .access who a) (by simp)) fun e he => ?_
        rw [he]
        exact ⟨hm, rfl⟩
      exact TearSafe.calm hn ⟨hb, rfl, hm, ⟨c.next, (halive.behind hc).2⟩, hat⟩
    · simp only [hd, if_false]
      intro g hg
      rw [List.mem_singleton.mp hg]
      exact timeDel_safe who sig hb hc halive hat
  | wait a =>
    obtain ⟨hb, hm, hbe, hat⟩ := h
    have hn := hcalm a rfl (by simp) rfl hm
    intro g hg
    obtain ⟨pc', hpc, hnext⟩ := (overStep_goes who sig (.wait a) ans m a rfl).frames g hg
    subst hpc hnext
    exact TearSafe.calm hn ⟨hb, rfl, hm, hbe, hat⟩
  | after a ss =>
    obtain ⟨hb, hp, hm, hbe, hat⟩ := h
    have hn := hcalm a rfl (by simp) hp hm
    intro g hg
    obtain ⟨pc', hpc, hnext⟩ := (overStep_goes who sig (.after a ss) ans m a rfl).frames g hg
    subst hpc
    refine TearSafe.calm hn ⟨hb, ?_⟩
    cases ss with
    | nil =>
      subst hnext
      exact ⟨hm, hbe, hat⟩
    | cons s ss =>
      subst hnext
      exact ⟨List.all_eq_true.mpr fun x hx => List.all_eq_true.mp hp x (List.mem_cons_of_mem s hx),
        hm, hbe, hat⟩
  | takeNext a =>
    obtain ⟨hb, hm, hbe, hat⟩ := h
    have hn := hcalm a rfl (by simp) rfl hm
    intro g hg
    obtain ⟨pc', hpc, c, hc, hnext⟩ := (overStep_goes who sig (.takeNext a) ans m a rfl).frames g hg
    subst hpc hnext
    refine TearSafe.calm hn ⟨hb, hm, ?_, hat⟩
    obtain ⟨r, hr⟩ := hbe
    have he : r = c.next := by
      have hnx := hr.1
      rw [Mem.nxt_of_node hc, Option.some.injEq] at hnx
      exact hnx.symm
    exact he ▸ hr
  | free a tem =>
    obtain ⟨hb, hm, hbe, hat⟩ := h
    simp only [overStep]
    cases he : Cleanup.exec a m .free with
    | none => simp [crash, Ctl.frames]
    | some n =>
      obtain ⟨hbn, halive, hhead⟩ := free_safe hb hm hbe hat he
      intro g hg
      cases tem with
      | none =>
        rw [List.mem_singleton.mp hg]
        exact ⟨hbn, hhead⟩
      | some b =>
        rw [List.mem_singleton.mp hg]
        exact ⟨hbn, rfl, halive, Or.inr hhead⟩
  | cychead =>
    intro g hg
    rw [List.mem_singleton.mp hg]
    exact ⟨⟨h.1.safe, h.1.freed, h.1.old⟩, rfl⟩
  | cycheadnext =>
    intro g hg
    rw [List.mem_singleton.mp hg]
    exact ⟨⟨h.1.safe, h.1.freed, h.1.old⟩, h.2⟩
  | shead =>
    simp only [overStep]
    split_ifs
    · intro g hg
      rw [List.mem_singleton.mp hg]
      exact ⟨h.1, h.2⟩
    · intro g hg
      rw [List.mem_singleton.mp hg]
      have hk : Keep (fun e => e.quiet = true) m ({ m with shead := none }.emit [.freeShead]) :=
        ⟨rfl, rfl, rfl, rfl, [.freeShead], rfl, by simp [Event.quiet]⟩
      exact TearSafe.calm (hquiet hk) (show TearSafe (.gameover who sig .filehead) m from ⟨h.1, h.2⟩)
  | filehead =>
    intro g hg
    rw [List.mem_singleton.mp hg]
    have hk : Keep (fun e => e.quiet = true) m ({ m with filehead := [] }.emit (freeFiledate m.filehead)) :=
      ⟨rfl, rfl, rfl, rfl, freeFiledate m.filehead, rfl, freeFiledate_quiet _⟩
    exact TearSafe.calm (hquiet hk) (show TearSafe (.gameover who sig .logDel) m from ⟨h.1, h.2⟩)
  | logDel =>
    simp only [overStep]
    cases he : TimeTask.logDel m.mainld m with
    | none => simp [crash, Ctl.frames]
    | some n =>
      intro g hg
      rw [List.mem_singleton.mp hg]
      exact TearSafe.calm (hquiet (logDel_local (fun _ hq => hq) 0 he).toKeep)
        (show TearSafe (.gameover who sig .mainld) m from ⟨h.1, h.2⟩)
  | mainld =>
    intro g hg
    rw [List.mem_singleton.mp hg]
    exact ⟨⟨h.1.safe, h.1.freed, h.1.old⟩, h.2⟩
  | exit => simp [overStep, Ctl.frames]

theorem mainStep_calm (dirch : List Byte) {pc : MainPc} (ans : Ans) {m : Mem} (hb : Book m)
    (hs : MainSafe m pc) (hl : pc.links = false) : Calm m (mainStep dirch pc ans m).2 := by
  refine Calm.keep hb.safe (mainStep_keep dirch pc ans m hl) fun e he => ?_
  cases he with
  | quiet e h => exact quiet_follows h
  | call a k ks hpc =>
    subst hpc
    have hk : k = .init ∨ k = .login := hs k (by simp)
    cases hk with
    | inl hk =>
      subst hk
      exact ⟨fun hm => by simp at hm, rfl⟩
    | inr hk =>
      subst hk
      exact ⟨fun hm => by simp at hm, rfl⟩

theorem malloc_safe {m : Mem} (hb : Book m) (h : Alive m m.cychead) (i : LibInfo) (k : Nat) :
    TearSafe (.main (.linkHead m.nodes.brk i k)) (cycmakeMalloc none m).2 := by
  obtain ⟨l, hl, hd⟩ := h
  have hne : ∀ a, a ≠ m.nodes.brk → (cycmakeMalloc none m).2.nxt a = m.nxt a := by
    intro a ha
    simp [Mem.nxt, Heap.next, cycmakeMalloc, Heap.cell_alloc_ne _ _ ha]
  have hlt : ∀ a ∈ l, a ≠ m.nodes.brk := by
    intro a ha he
    obtain ⟨c, hc⟩ := Mem.ListIs.node hl ha
    exact Nat.lt_irrefl _ (he ▸ m.nodes.lt_brk hc)
  have hl' : (cycmakeMalloc none m).2.ListIs l := chain_congr (fun a ha => hne a (hlt a ha)) hl
  refine ⟨⟨hb.safe, fun a ha => ?_, fun a ha => Nat.lt_succ_of_lt (hb.old a ha)⟩, ⟨l, hl', hd⟩, ?_, ?_, ?_⟩
  · rw [hne a (Nat.ne_of_lt (hb.old a (Or.inr ha)))]
    exact hb.freed a ha
  · simp [Mem.nxt, Heap.next, cycmakeMalloc, Cycdata.zero]
  · exact fun hdead => Nat.lt_irrefl _ (hb.old _ hdead)
  · intro k' hk'
    rw [chain_unique hk' hl']
    exact fun hm => hlt _ hm rfl

theorem Book.nodes {m n : Mem} (hb : Book m) (hn : ∀ a, m.nxt a = none → n.nxt a = none)
    (hbrk : n.nodes.brk = m.nodes.brk) (htr : n.trace = m.trace) : Book n := by
  refine ⟨htr ▸ hb.safe, fun a ha => ?_, fun a ha => ?_⟩
  · exact hn a (hb.freed a (htr ▸ ha))
  · rw [hbrk]
    exact hb.old a (htr ▸ ha)

/-- The new node is put behind the node that cycheadnext points to, wherever that is. -/
theorem linkHead_safe {m n : Mem} {tem : Addr} (hb : Book m) (h : Alive m m.cychead)
    (ht : m.nxt tem = some none) (htd : ¬ Dead m.trace tem) (hoff : ∀ l, m.ListIs l → tem ∉ l)
    (hl : TimeTask.linkHead tem m = some n) : Book n ∧ Alive n n.cychead := by
  obtain ⟨l, hls, hd⟩ := h
  simp only [TimeTask.linkHead] at hl
  cases hh : m.cychead with
  | none =>
    rw [hh] at hl
    cases hl
    exact ⟨⟨hb.safe, hb.freed, hb.old⟩, [tem], ⟨rfl, none, ht, rfl⟩, by simpa using htd⟩
  | some x =>
    rw [hh] at hl
    cases hc : m.cycheadnext with
    | none => simp [hc] at hl
    | some t =>
      rw [hc] at hl
      cases hn : m.node t with
      | none => simp [hn] at hl
      | some c =>
        simp only [hn, Option.some.injEq] at hl
        subst hl
        have hself : (m.update t fun c => { c with next := some tem }).nxt t = some (some tem) := by
          rw [Mem.nxt_eq, Mem.node_update_self, hn]
          rfl
        have hother : ∀ b, b ≠ t → (m.update t fun c => { c with next := some tem }).nxt b = m.nxt b := by
          intro b hbt
          rw [Mem.nxt_eq, Mem.node_update_ne m _ hbt, ← Mem.nxt_eq]
        have hoffl : tem ∉ l := hoff l hls
        refine ⟨hb.nodes (fun a ha => ?_) rfl rfl, ?_⟩
        · have hat : a ≠ t := by
            intro he
            rw [he, Mem.nxt_of_node hn] at ha
            cases ha
          rw [hother a hat]
          exact ha
        · by_cases htl : t ∈ l
          · obtain ⟨k, k', he⟩ := List.append_of_mem htl
            subst he
            have hnd := chain_nodup hls
            have htk : ∀ b ∈ k, b ≠ t := fun b hbk hbt =>
              (List.nodup_append.mp hnd).2.2 b hbk t (by simp) hbt
            have htt : tem ≠ t := fun he => hoffl (by simp [he])
            obtain ⟨r, hk, hr⟩ := seg_append.mp hls
            have hrt : r = some t := hr.1
            refine ⟨k ++ [t, tem], seg_append.mpr ⟨r, seg_congr (fun b hbk => hother b (htk b hbk)) hk,
              hrt, some tem, hself, rfl, none, (hother tem htt).trans ht, rfl⟩, fun b hbm => ?_⟩
            simp only [List.mem_append, List.mem_cons, List.not_mem_nil, or_false] at hbm
            obtain (hbk | hbt | hbt) := hbm
            · exact hd b (by simp [hbk])
            · exact hd b (by simp [hbt])
            · exact hbt ▸ htd
          · exact ⟨l, chain_congr (fun b hbl => hother b fun he => htl (he ▸ hbl)) hls, hd⟩

/-- freeCycdata takes a node off the list that is on it. -/
theorem unlink_safe {m n : Mem} {a : Addr} {BB : Option Addr} (hb : Book m) (h : Alive m m.cychead)
    (hf : freeSearch m a m.nodes.brk m.cychead none = some (some BB))
    (hu : unlinkCycdata a BB m = some n) :
    Book n ∧ Alive n n.cychead ∧ ∀ l, n.ListIs l → a ∉ l := by
  obtain ⟨l, hl, hd⟩ := h
  have hlen := Mem.ListIs.length_le hl
  by_cases hal : a ∈ l
  · obtain ⟨k, k', he⟩ := List.append_of_mem hal
    subst he
    have hnd := List.nodup_append.mp (chain_nodup hl)
    have hk : a ∉ k := fun hm => hnd.2.2 a hm a (by simp) rfl
    have hk' : a ∉ k' := (List.nodup_cons.mp hnd.2.1).1
    have hlt : k.length < m.nodes.brk := by
      rw [List.length_append, List.length_cons] at hlen
      omega
    have hs := freeSearch_chain none hl hk hlt
    rw [hs] at hf
    simp only [Option.some.injEq] at hf
    obtain ⟨q, hq, hlq, hbody, hm, hbrk⟩ := unlinkCycdata_chain hl
    have hBB : BB = k.getLast? := by
      rw [← hf]
      cases k.getLast? <;> rfl
    rw [hBB, hq, Option.some.injEq] at hu
    subst hu
    have htr : q.trace = m.trace := by rw [hm]
    refine ⟨hb.nodes (fun b hnb => ?_) hbrk htr, ⟨k ++ k', hlq, fun b hbm => ?_⟩, fun l' hl' => ?_⟩
    · have hbb := congrFun hbody b
      have hnone : m.node b = none := Option.map_eq_none_iff.mp hnb
      simp only [Mem.body, hnone, Option.map_none] at hbb
      rw [Mem.nxt_eq, Option.map_eq_none_iff.mp hbb]
      rfl
    · rw [htr]
      cases List.mem_append.mp hbm with
      | inl hbm => exact hd b (by simp [hbm])
      | inr hbm => exact hd b (by simp [hbm])
    · rw [chain_unique hl' hlq]
      intro hm'
      cases List.mem_append.mp hm' with
      | inl hm' => exact hk hm'
      | inr hm' => exact hk' hm'
  · rw [freeSearch_absent hl hal hlen] at hf
    simp at hf

/-- The cleanup of a node that is off the list leaves the list alone. -/
theorem cleanup_safe {m n : Mem} {a : Addr} {s : Cleanup} (hb : Book m) (h : Alive m m.cychead)
    (hoff : ∀ l, m.ListIs l → a ∉ l) (he : s.exec a m = some n) :
    Book n ∧ Alive n n.cychead ∧ ∀ l, n.ListIs l → a ∉ l := by
  have hframe : TearSafe (.main (.cleanup a [] none)) m := ⟨hb, h, hoff⟩
  by_cases hs : s.plain = true
  · have hk := (exec_local (E := fun e => e.quiet = true) (fun _ hq => hq) hs he).toKeep
    exact hframe.calm (Calm.keep hb.safe hk fun _ hq => quiet_follows hq)
  · obtain ⟨l, hl, hd⟩ := h
    have hal := hoff l hl
    simp only [Cleanup.exec] at he
    cases hc : m.node a with
    | none => simp [hc] at he
    | some c =>
      rw [hc] at he
      cases s with
      | next =>
        cases he
        have hother : ∀ b, b ≠ a → (m.update a fun c => { c with next := none }).nxt b = m.nxt b := by
          intro b hba
          rw [Mem.nxt_eq, Mem.node_update_ne m _ hba, ← Mem.nxt_eq]
        have hl' : (m.update a fun c => { c with next := none }).ListIs l :=
          chain_congr (fun b hbl => hother b fun hba => hal (hba ▸ hbl)) hl
        refine ⟨hb.nodes (fun b hnb => ?_) rfl rfl, ⟨l, hl', hd⟩, fun k hk => chain_unique hk hl' ▸ hal⟩
        have hba : b ≠ a := by
          intro hba
          rw [hba, Mem.nxt_of_node hc] at hnb
          cases hnb
        rw [hother b hba]
        exact hnb
      | free =>
        have hfree : Event.free a ∉ m.trace := by
          intro hm
          have hn := hb.freed a hm
          rw [Mem.nxt_of_node hc] at hn
          cases hn
        cases he
        have hother : ∀ b, b ≠ a →
            ({ m with nodes := m.nodes.free a }.emit [.free a] : Mem).nxt b = m.nxt b := by
          intro b hba
          simp [Mem.nxt, Heap.next, Mem.emit, Heap.cell_free_ne m.nodes hba]
        have hl' : ({ m with nodes := m.nodes.free a }.emit [.free a] : Mem).ListIs l :=
          chain_congr (fun b hbl => hother b fun hba => hal (hba ▸ hbl)) hl
        have hdead : ∀ b, Dead (m.trace ++ [.free a]) b ↔ Dead m.trace b ∨ b = a := by
          intro b
          rw [dead_append]
          simp [Dead]
        refine ⟨⟨hb.safe.snoc hfree, fun b hbm => ?_, fun b hbm => ?_⟩, ⟨l, hl', fun b hbl => ?_⟩,
          fun k hk => chain_unique hk hl' ▸ hal⟩
        · by_cases hba : b = a
          · subst hba
            simp [Mem.nxt, Heap.next, Mem.emit]
          · rw [hother b hba]
            have hbm' : Event.free b ∈ m.trace ++ [.free a] := hbm
            exact hb.freed b (by simpa [hba] using hbm')
        · cases (hdead b).mp hbm with
          | inl hbd => exact hb.old b hbd
          | inr hba =>
            rw [hba]
            exact m.nodes.lt_brk hc
        · refine (hdead b).not.mpr fun hbd => ?_
          cases hbd with
          | inl hbd => exact hd b hbl hbd
          | inr hba => exact hal (hba ▸ hbl)
      | _ => exact absurd rfl hs

theorem tearSafe_plain {pc : MainPc} {m : Mem} (hp : pc.guarded = false) (hb : Book m)
    (h : Alive m m.cychead) : TearSafe (.main pc) m := by
  refine ⟨hb, h, ?_⟩
  cases pc with
  | linkHead _ _ _ => cases hp
  | cleanup _ _ _ => cases hp
  | method _ _ => cases hp
  | wait _ _ _ => cases hp
  | _ => trivial

/-- One statement of main keeps its assertion. -/
theorem mainStep_tearSafe (dirch : List Byte) (pc : MainPc) (ans : Ans) (m : Mem)
    (h : TearSafe (.main pc) m) :
    ∀ g ∈ (mainStep dirch pc ans m).1.frames, TearSafe g (mainStep dirch pc ans m).2 := by
  obtain ⟨hb, halive, hs⟩ := h
  have hplain : pc.guards = false → pc ≠ .END →
      ∀ g ∈ (mainStep dirch pc ans m).1.frames, TearSafe g (mainStep dirch pc ans m).2 := by
    intro hg hne g hm
    obtain ⟨pc', hp, hgu⟩ := (mainStep_stays dirch pc ans m hne).frames g hm
    subst hp
    have hn := mainStep_calm dirch ans hb hs (guards_links hg)
    exact TearSafe.calm hn (tearSafe_plain (hgu hg) hb halive)
  cases pc with
  | END =>
    intro g hg
    simp only [mainStep, Ctl.frames, List.mem_cons, List.not_mem_nil, or_false] at hg ⊢
    cases hg with
    | inl hg => exact hg ▸ ⟨hb, halive⟩
    | inr hg => exact hg ▸ ⟨hb, halive, trivial⟩
  | malloc i ok k =>
    intro g hg
    cases ok with
    | false =>
      rw [List.mem_singleton.mp hg]
      exact ⟨hb, halive, trivial⟩
    | true =>
      rw [List.mem_singleton.mp hg]
      exact malloc_safe hb halive i k
  | linkHead tem i k =>
    simp only [mainStep]
    cases hl : TimeTask.linkHead tem m with
    | none => simp [crash, Ctl.frames]
    | some n =>
      obtain ⟨hbn, han⟩ := linkHead_safe hb halive hs.1 hs.2.1 hs.2.2 hl
      intro g hg
      rw [List.mem_singleton.mp hg]
      exact ⟨hbn, han, trivial⟩
  | linkTail tem i k =>
    intro g hg
    rw [List.mem_singleton.mp hg]
    exact ⟨⟨hb.safe, hb.freed, hb.old⟩, halive, trivial⟩
  | unlink a cycnext =>
    simp only [mainStep]
    cases hf : freeSearch m a m.nodes.brk m.cychead none with
    | none => simp [crash, Ctl.frames]
    | some q =>
      cases q with
      | none =>
        intro g hg
        rw [List.mem_singleton.mp hg]
        exact ⟨hb, halive, trivial⟩
      | some BB =>
        simp only
        cases hu : unlinkCycdata a BB m with
        | none => simp [crash, Ctl.frames]
        | some n =>
          intro g hg
          rw [List.mem_singleton.mp hg]
          exact unlink_safe hb halive hf hu
  | cleanup a ss cycnext =>
    cases ss with
    | nil =>
      intro g hg
      rw [List.mem_singleton.mp hg]
      exact ⟨hb, halive, trivial⟩
    | cons s ss =>
      simp only [mainStep]
      cases he : s.exec a m with
      | none => simp [crash, Ctl.frames]
      | some n =>
        intro g hg
        rw [List.mem_singleton.mp hg]
        exact cleanup_safe hb halive hs he
  | initAt cyctem =>
    intro g hg
    cases cyctem with
    | none =>
      rw [List.mem_singleton.mp hg]
      exact ⟨hb, halive, trivial⟩
    | some a =>
      rw [List.mem_singleton.mp hg]
      exact ⟨hb, halive, by simp [MainSafe]⟩
  | method a ks =>
    have hn := mainStep_calm dirch ans hb hs (rfl : (MainPc.method a ks).links = false)
    cases ks with
    | nil =>
      simp only [mainStep] at hn ⊢
      cases hx : m.nxt a with
      | none => simp [crash, Ctl.frames]
      | some r =>
        intro g hg
        rw [List.mem_singleton.mp hg]
        exact ⟨hb, halive, trivial⟩
    | cons k ks =>
      have hks : ∀ j ∈ ks, j = .init ∨ j = .login := fun j hj => hs j (List.mem_cons_of_mem k hj)
      simp only [mainStep] at hn ⊢
      cases hc : m.node a with
      | none => simp [crash, Ctl.frames]
      | some c =>
        rw [hc] at hn
        simp only at hn ⊢
        split_ifs at hn ⊢
        · intro g hg
          rw [List.mem_singleton.mp hg]
          exact ⟨hb, halive, hks⟩
        · intro g hg
          rw [List.mem_singleton.mp hg]
          exact TearSafe.calm hn (show TearSafe (.main (.wait a k ks)) m from ⟨hb, halive, hks⟩)
  | wait a k ks =>
    have hn := mainStep_calm dirch ans hb hs (rfl : (MainPc.wait a k ks).links = false)
    simp only [mainStep] at hn ⊢
    split_ifs at hn ⊢
    · intro g hg
      rw [List.mem_singleton.mp hg]
      exact TearSafe.calm hn (show TearSafe (.main .END) m from ⟨hb, halive, trivial⟩)
    · intro g hg
      rw [List.mem_singleton.mp hg]
      exact TearSafe.calm hn (show TearSafe (.main (.method a ks)) m from ⟨hb, halive, hs⟩)
  | _ => exact hplain rfl (by simp)

/-- Signals come only while the module at cychead, if there is one, is not dead. -/
def SignalSafe (c : Config Frame Mem) : Label Ans Signal → Prop
  | .run _ => True
  | .signal _ => ∀ a, c.mem.cychead = some a → ¬ Dead c.mem.trace a

/-- Whoever is interrupted, the list is intact when the module at cychead is not dead. -/
theorem TearSafe.alive {f : Frame} {m : Mem} (h : TearSafe f m)
    (hs : ∀ a, m.cychead = some a → ¬ Dead m.trace a) : Alive m m.cychead := by
  have hnone : m.cychead = none → Alive m m.cychead := fun hn => hn ▸ ⟨[], rfl, by simp⟩
  have hhead : ¬ HeadDead m := fun hd => by
    obtain ⟨a, ha, hda⟩ := hd
    exact hs a ha hda
  have hat : ∀ a, (m.cychead = some a ∨ HeadDead m) → (m.cychead = some a → Alive m (some a)) →
      Alive m m.cychead := by
    intro a ha hal
    cases ha with
    | inl ha => exact ha ▸ hal ha
    | inr ha => exact absurd ha hhead
  have hbehind : ∀ a r, Behind m a r → m.cychead = some a → Alive m (some a) := by
    intro a r hb ha
    obtain ⟨hr, l, hl, _, hd⟩ := hb
    refine ⟨a :: l, ⟨rfl, r, hr, hl⟩, fun b hb => ?_⟩
    cases List.mem_cons.mp hb with
    | inl he => exact he ▸ hs a ha
    | inr hb => exact hd b hb
  obtain ⟨_, h⟩ := h
  cases f with
  | main pc => exact h.1
  | tick who pc => exact h.1
  | gameover who sig pc =>
    have ho : OverSafe m who pc := h
    cases pc with
    | log => exact ho
    | start => exact ho
    | before a ss => exact hat a ho.2.2 fun _ => ho.2.1
    | timeDel a => exact hat a ho.2 fun _ => ho.1
    | wait a =>
      obtain ⟨_, ⟨r, hr⟩, ha⟩ := ho
      exact hat a ha (hbehind a r hr)
    | after a ss =>
      obtain ⟨_, _, ⟨r, hr⟩, ha⟩ := ho
      exact hat a ha (hbehind a r hr)
    | takeNext a =>
      obtain ⟨_, ⟨r, hr⟩, ha⟩ := ho
      exact hat a ha (hbehind a r hr)
    | free a tem => exact hat a ho.2.2 (hbehind a tem ho.2.1)
    | cychead => exact absurd ho hhead
    | _ => exact hnone ho

theorem tearSafe_keeps (dirch : List Byte) : (daemon dirch).Keeps SignalSafe Frame.final
    (fun f g => f.above g = true) TearSafe := by
  refine ⟨daemon_sits dirch SignalSafe, ?_, ?_, ?_, daemon_final dirch⟩
  · intro f ans m h
    cases f with
    | main pc => exact mainStep_tearSafe dirch pc ans m h
    | tick who pc => exact tickStep_tearSafe who pc ans m h
    | gameover who sig pc => exact overStep_tearSafe who sig pc ans m h
  · intro f ans m h hf _ g hfg hg
    cases f with
    | main pc => cases hfg
    | tick who pc => exact hg.calm (tickStep_calm who pc ans m h)
    | gameover who sig pc =>
      cases pc with
      | log => exact hg.calm (overLog_calm who sig ans h.1)
      | start => exact (overStep_start who sig ans m).symm ▸ hg
      | _ => cases hf
  · intro c s f fs hst hok hf
    have hcalm : Calm c.mem { c.mem with signals := c.mem.signals + 1 } :=
      ⟨rfl, rfl, rfl, fun _ _ => Iff.rfl, hf.1.safe⟩
    have halive := hf.alive hok
    refine ⟨?_, fun g hg => by cases s <;> exact hg.calm hcalm⟩
    cases s with
    | alarm =>
      exact TearSafe.calm hcalm (show TearSafe (.tick (c.mem.signals + 1) .enter) c.mem from
        ⟨hf.1, halive, fun a ha => (by cases ha), List.not_mem_nil⟩)
    | usr1 =>
      exact TearSafe.calm hcalm (show TearSafe (.gameover (c.mem.signals + 1) true .log) c.mem from
        ⟨hf.1, halive⟩)

theorem mainStep_traceSafe (dirch : List Byte) (pc : MainPc) (ans : Ans) (m : Mem)
    (h : TearSafe (.main pc) m) : TraceSafe (mainStep dirch pc ans m).2.trace := by
  have hframes := mainStep_tearSafe dirch pc ans m h
  cases hl : pc.links with
  | false => exact (mainStep_calm dirch ans h.1 h.2.2 hl).safe
  | true =>
    cases pc with
    | malloc i ok k =>
      cases ok with
      | false => cases hl
      | true => exact h.1.safe
    | linkHead tem i k =>
      simp only [mainStep] at hframes ⊢
      cases hlk : TimeTask.linkHead tem m with
      | none => exact h.1.safe
      | some n =>
        rw [hlk] at hframes
        exact (hframes _ List.mem_cons_self).1.safe
    | linkTail tem i k => exact h.1.safe
    | unlink a cycnext =>
      simp only [mainStep] at hframes ⊢
      cases hf : freeSearch m a m.nodes.brk m.cychead none with
      | none => exact h.1.safe
      | some q =>
        cases q with
        | none => exact h.1.safe
        | some BB =>
          rw [hf] at hframes
          simp only at hframes ⊢
          cases hu : unlinkCycdata a BB m with
          | none => exact h.1.safe
          | some n =>
            rw [hu] at hframes
            exact (hframes _ List.mem_cons_self).1.safe
    | cleanup a ss cycnext =>
      cases ss with
      | nil => exact h.1.safe
      | cons s ss =>
        simp only [mainStep] at hframes ⊢
        cases he : s.exec a m with
        | none => exact h.1.safe
        | some n =>
          rw [he] at hframes
          exact (hframes _ List.mem_cons_self).1.safe
    | _ => cases hl

theorem overStep_traceSafe (who : Nat) (sig : Bool) (pc : OverPc) (ans : Ans) (m : Mem)
    (h : TearSafe (.gameover who sig pc) m) : TraceSafe (overStep who sig pc ans m).2.trace := by
  have hframes := overStep_tearSafe who sig pc ans m h
  cases hk : (overStep who sig pc ans m).1.frames with
  | cons g gs => exact (hframes g (by simp [hk])).1.safe
  | nil =>
    cases pc with
    | log => exact (overLog_calm who sig ans h.1).safe
    | start => exact (overStep_start who sig ans m).symm ▸ h.1.safe
    | before a ss =>
      obtain ⟨hb, hp, ⟨l, hl, hd⟩, _⟩ := h
      obtain ⟨k, _, hlk, _, _⟩ := chain_some hl
      exact (overStep_calm who sig (.before a ss) ans hb rfl (by simp) hp
        (mine_of_alive (hd a (by simp [hlk])) who)).safe
    | timeDel a =>
      obtain ⟨hb, ⟨l, hl, _⟩, _⟩ := h
      obtain ⟨_, r, _, hr, _⟩ := chain_some hl
      obtain ⟨c, hc, _⟩ := Option.map_eq_some_iff.mp hr
      simp only [overStep, touch, Mem.node_emit] at hk
      rw [show m.node a = some c from hc] at hk
      simp only at hk
      split_ifs at hk <;> cases hk
    | wait a => cases hk
    | after a ss =>
      obtain ⟨hb, hp, hm, _⟩ := h
      exact (overStep_calm who sig (.after a ss) ans hb rfl (by simp) hp hm).safe
    | takeNext a =>
      obtain ⟨hb, hm, _⟩ := h
      exact (overStep_calm who sig (.takeNext a) ans hb rfl (by simp) rfl hm).safe
    | free a tem =>
      simp only [overStep] at hk ⊢
      cases he : Cleanup.exec a m .free with
      | none => exact h.1.safe
      | some n =>
        rw [he] at hk
        cases tem <;> cases hk
    | shead =>
      simp only [overStep] at hk
      split_ifs at hk <;> cases hk
    | logDel =>
      simp only [overStep] at hk ⊢
      cases he : TimeTask.logDel m.mainld m with
      | none => exact h.1.safe
      | some n =>
        rw [he] at hk
        cases hk
    | exit =>
      have hs := h.1.safe.snoc (e := .exit) trivial
      exact hs
    | _ => cases hk

theorem countP_le_one {p : Event → Bool} {tr : List Event}
    (h : ∀ pre e post, tr = pre ++ e :: post → p e = true → ∀ x ∈ pre, p x = false) :
    tr.countP p ≤ 1 := by
  induction tr using List.reverseRecOn with
  | nil => simp
  | append_singleton tr e ih =>
    rw [List.countP_append, List.countP_singleton]
    by_cases he : p e = true
    · have hz : tr.countP p = 0 := by
        rw [List.countP_eq_zero]
        intro x hx hpx
        rw [h tr e [] rfl he x hx] at hpx
        cases hpx
      simp [hz, he]
    · rw [if_neg he]
      exact ih fun pre x post hx hpx => h pre x (post ++ [e]) (by simp [hx]) hpx

def Event.deldateOf (a : Addr) : Event → Bool
  | .call _ b .deldate => b = a
  | _ => false

/-- In every run whose signals come while the module at cychead is neither ended nor freed, no
deldate is called twice, no node is freed twice, and nothing is done with a module after its end. -/
theorem gameover_once (dirch : List Byte) (c : Config Frame Mem)
    (hr : (daemon dirch).Reach SignalSafe daemonStart c) :
    (∀ a, c.mem.trace.countP (Event.deldateOf a) ≤ 1) ∧ (∀ a, c.mem.trace.count (.free a) ≤ 1) ∧
      TraceSafe c.mem.trace := by
  have h0 : TearSafe (.main .loadFile) Mem.init := by
    refine ⟨⟨TraceSafe.nil, fun a ha => ?_, fun a ha => ?_⟩, ⟨[], rfl, by simp⟩, trivial⟩
    · simp [Mem.init] at ha
    · simp [Mem.init, Dead] at ha
  have hsafe : TraceSafe c.mem.trace := by
    refine (tearSafe_keeps dirch).always hr (I := fun m => TraceSafe m.trace)
      (by simpa [daemonStart, Machine.alive, Frame.final] using h0) (by simp [daemonStart])
      TraceSafe.nil ?_ ?_
    · intro f ans m h
      cases f with
      | main pc => exact mainStep_traceSafe dirch pc ans m h
      | tick who pc => exact (tickStep_calm who pc ans m h).safe
      | gameover who sig pc => exact overStep_traceSafe who sig pc ans m h
    · intro s m h
      cases s <;> exact h
  refine ⟨fun a => countP_le_one fun pre e post htr he x hx => ?_,
    fun a => countP_le_one fun pre e post htr he x hx => ?_, hsafe⟩
  · have hf := hsafe pre e post htr
    cases e with
    | call w b k =>
      cases k with
      | deldate =>
        have hba : b = a := by simpa [Event.deldateOf] using he
        subst hba
        have hnd := hf (by simp)
        cases hx' : Event.deldateOf b x with
        | false => rfl
        | true =>
          refine absurd ?_ hnd
          cases x with
          | call w' d j =>
            cases j with
            | deldate =>
              have hdb : d = b := by simpa [Event.deldateOf] using hx'
              exact Or.inl ⟨w', hdb ▸ hx⟩
            | _ => cases hx'
          | _ => cases hx'
      | _ => cases he
    | _ => cases he
  · have hea : e = .free a := by simpa using he
    subst hea
    have hf := hsafe pre (.free a) post htr
    cases hxa : (x == Event.free a) with
    | false => rfl
    | true =>
      have hxf : x = .free a := by simpa using hxa
      exact absurd (hxf ▸ hx) hf

def stopToExit : List (Label Ans Signal) :=
  .signal .usr1 :: List.replicate 20 (.run (world fun _ => some 0))

theorem gameover_once_paused : ∃ c : Config Frame Mem, (daemon []).Reach SignalSafe daemonStart c ∧
    Event.free 0 ∈ c.mem.trace ∧ (∀ a, c.mem.trace.countP (Event.deldateOf a) ≤ 1) ∧
      (∀ a, c.mem.trace.count (.free a) ≤ 1) ∧ TraceSafe c.mem.trace := by
  have hok : ∀ d a, SignalSafe d (.run a) := fun _ _ => trivial
  have hx : (((daemon []).exec (paused fun _ => some 0) daemonStart).bind fun c =>
      ((daemon []).exec stopToExit c).map fun d => (c.mem.trace, d.mem.trace.contains (.free 0))) =
        some ([.opendir, .closedir, .call 0 0 .init, .ret 0 0 .init 0, .call 0 0 .login,
          .ret 0 0 .login 0], true) := by
    rfl
  obtain ⟨c, hc, hx⟩ := Option.bind_eq_some_iff.mp hx
  obtain ⟨e, he, hx⟩ := Option.map_eq_some_iff.mp hx
  simp only [Prod.mk.injEq] at hx
  obtain ⟨htr, hfree⟩ := hx
  obtain ⟨d, hd, he⟩ := Option.bind_eq_some_iff.mp he
  have hr₁ := Machine.reach_of_runs (paused_run _) hok Machine.Reach.refl hc
  have hsafe : SignalSafe c (.signal .usr1) := by
    intro a _
    rw [htr]
    simp [Dead]
  have hr := Machine.reach_of_runs (by simp) hok (hr₁.step hsafe hd) he
  exact ⟨e, hr, by simpa using hfree, gameover_once [] e hr⟩

/-- SIGUSR1 while main waits, and a timer signal during the call of deldate. -/
def tickInDeldate : List (Label Ans Signal) :=
  (paused fun _ => some 0) ++ .signal .usr1 :: List.replicate 7 (.run (world fun _ => some 0)) ++
    .signal .alarm :: List.replicate 6 (.run (world fun _ => some 0))

/-- The tick calls seach of the module whose deldate has been called. -/
theorem seach_after_deldate : ∃ c : Config Frame Mem,
    (daemon []).Reach (fun _ _ => True) daemonStart c ∧
      ∃ pre w a post, c.mem.trace = pre ++ .call w a .seach :: post ∧ Dead pre a := by
  have hx : (((daemon []).exec tickInDeldate daemonStart).map fun c => c.mem.trace) =
      some ([.opendir, .closedir, .call 0 0 .init, .ret 0 0 .init 0, .call 0 0 .login, .ret 0 0 .login 0,
        .access 1 0, .access 1 0, .access 1 0, .access 1 0, .call 1 0 .deldate,
        .access 2 0, .access 2 0, .access 2 0, .access 2 0, .access 2 0] ++ [.call 2 0 .seach]) := by
    rfl
  obtain ⟨c, hc, htr⟩ := Option.map_eq_some_iff.mp hx
  exact ⟨c, Machine.reach_of_exec tickInDeldate (fun _ _ _ => trivial) Machine.Reach.refl hc, _, 2, 0, [],
    htr, Or.inl ⟨1, by simp⟩⟩

end TimeTask
