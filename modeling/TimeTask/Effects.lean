import TimeTask.Process

/-! What one step of main or of a handler can change, whatever it was interrupted by. -/
namespace TimeTask
open Lib

/-- The links and the two list globals stay; the trace grows by events that satisfy `E`. -/
structure Keep (E : Event → Prop) (m m' : Mem) : Prop where
  nxt : m'.nxt = m.nxt
  head : m'.cychead = m.cychead
  tail : m'.cycheadnext = m.cycheadnext
  brk : m'.nodes.brk = m.nodes.brk
  trace : ∃ es, m'.trace = m.trace ++ es ∧ ∀ e ∈ es, E e

/-- In addition no node but `a` changes. -/
structure Local (a : Addr) (E : Event → Prop) (m m' : Mem) : Prop extends Keep E m m' where
  other : ∀ b, b ≠ a → m'.node b = m.node b

variable {E : Event → Prop} {m n p : Mem} {a : Addr}

theorem Keep.refl (m : Mem) : Keep E m m := ⟨rfl, rfl, rfl, rfl, [], by simp, by simp⟩

theorem Keep.trans (h : Keep E m n) (k : Keep E n p) : Keep E m p := by
  obtain ⟨es, he, hE⟩ := h.trace
  obtain ⟨fs, hf, hF⟩ := k.trace
  refine ⟨k.nxt.trans h.nxt, k.head.trans h.head, k.tail.trans h.tail, k.brk.trans h.brk, es ++ fs, ?_, ?_⟩
  · rw [hf, he, List.append_assoc]
  · intro e hm
    cases List.mem_append.mp hm with
    | inl hm => exact hE e hm
    | inr hm => exact hF e hm

theorem Keep.emit (m : Mem) {es : List Event} (h : ∀ e ∈ es, E e) : Keep E m (m.emit es) :=
  ⟨rfl, rfl, rfl, rfl, es, rfl, h⟩

theorem Keep.update (m : Mem) (a : Addr) {f : Cycdata → Cycdata} (hf : ∀ c, (f c).next = c.next) :
    Keep E m (m.update a f) :=
  ⟨Mem.nxt_update m a hf, rfl, rfl, rfl, [], by simp [Mem.update], by simp⟩

theorem Local.refl (a : Addr) (m : Mem) : Local a E m m := ⟨Keep.refl m, fun _ _ => rfl⟩

theorem Local.trans (h : Local a E m n) (k : Local a E n p) : Local a E m p :=
  ⟨h.toKeep.trans k.toKeep, fun b hb => (k.other b hb).trans (h.other b hb)⟩

theorem Local.emit (a : Addr) (m : Mem) {es : List Event} (h : ∀ e ∈ es, E e) :
    Local a E m (m.emit es) := ⟨Keep.emit m h, fun _ _ => rfl⟩

theorem Local.update (m : Mem) (a : Addr) {f : Cycdata → Cycdata} (hf : ∀ c, (f c).next = c.next) :
    Local a E m (m.update a f) := ⟨Keep.update m a hf, fun _ hb => Mem.node_update_ne m f hb⟩

theorem Local.logs (h : Local a E m n) (l : Heap Unit) : Local a E m { n with logs := l } :=
  ⟨⟨h.nxt, h.head, h.tail, h.brk, h.trace⟩, h.other⟩

theorem local_methodRet (who : Nat) (a : Addr) (k : Method) (ans : Ans) (m : Mem)
    (h : E (.ret who a k ans.ret)) : Local a E m (m.methodRet who a k ans) := by
  have h1 : Local a E m (m.emit [.ret who a k ans.ret]) := Local.emit a m (by simpa using h)
  have hlog : ∀ n, Local a E m n → Local a E m (if ans.openLog then
      { n.update a fun c => { c with ld := some n.logs.brk } with logs := n.logs.alloc () } else n) := by
    intro n hn
    have hu : Local a E n (n.update a fun c => { c with ld := some n.logs.brk }) :=
      Local.update n a fun _ => rfl
    cases ans.openLog with
    | false => exact hn
    | true => exact (hn.trans hu).logs _
  simp only [Mem.methodRet]
  cases ans.tidata with
  | none => exact hlog _ h1
  | some t => exact hlog _ (h1.trans (Local.update _ a fun _ => rfl))

def TickPc.node : TickPc → Option Addr
  | .enter => none
  | .period a => some a
  | .bump a => some a
  | .compare a => some a
  | .reset a => some a
  | .method a _ => some a
  | .wait a _ _ => some a
  | .next a => some a

inductive TickEvent (who : Nat) (a : Addr) (pc : TickPc) : Event → Prop
  | access : TickEvent who a pc (.access who a)
  | call (k : Method) (ks : List Method) (h : pc = .method a (k :: ks)) : TickEvent who a pc (.call who a k)
  | ret (k : Method) (r : Int) : TickEvent who a pc (.ret who a k r)

theorem touch_local {who : Nat} {k : Cycdata → Mem → Ctl Frame × Mem} (h : E (.access who a))
    (hk : ∀ c, Local a E (m.emit [.access who a]) (k c (m.emit [.access who a])).2) :
    Local a E m (touch who a m k).2 := by
  have h1 : Local a E m (m.emit [.access who a]) := Local.emit a m (by simpa using h)
  simp only [touch]
  cases (m.emit [.access who a]).node a with
  | none => exact h1
  | some c => exact h1.trans (hk c)

/-- A tick changes the node it is at and no other. -/
theorem tickStep_local (who : Nat) (pc : TickPc) (ans : Ans) (m : Mem) (a : Addr)
    (ha : pc.node = some a) : Local a (TickEvent who a pc) m (tickStep who pc ans m).2 := by
  cases pc with
  | enter => cases ha
  | period b =>
    cases ha
    exact touch_local .access fun c => by split_ifs <;> exact Local.refl _ _
  | bump b =>
    cases ha
    exact touch_local .access fun c => Local.update _ a fun _ => rfl
  | compare b =>
    cases ha
    exact touch_local .access fun c => by split_ifs <;> exact Local.refl _ _
  | reset b =>
    cases ha
    exact touch_local .access fun c => Local.update _ a fun _ => rfl
  | method b ks =>
    cases ha
    cases ks with
    | nil => exact Local.refl _ m
    | cons k ks =>
      refine touch_local .access fun c => ?_
      split_ifs
      · exact Local.refl _ _
      · refine Local.emit a _ fun e he => ?_
        rw [List.mem_singleton.mp he]
        exact .call k ks rfl
  | wait b k ks =>
    cases ha
    have h := local_methodRet who a k ans m (TickEvent.ret k ans.ret : TickEvent who a (.wait a k ks) _)
    simp only [tickStep]
    split_ifs <;> exact h
  | next b =>
    cases ha
    refine touch_local .access fun c => ?_
    cases c.next <;> exact Local.refl _ _

theorem tickStep_enter (who : Nat) (ans : Ans) (m : Mem) : (tickStep who .enter ans m).2 = m := by
  simp only [tickStep]
  cases m.cychead <;> rfl

/-- Events that are no method call, no read of a handler and no release of a node. -/
def Event.quiet : Event → Bool
  | .call _ _ _ => false
  | .access _ _ => false
  | .free _ => false
  | _ => true

/-- The statements that write neither `next` nor the heap of nodes. -/
def Cleanup.plain : Cleanup → Bool
  | .next => false
  | .free => false
  | _ => true

theorem logDel_local (hE : ∀ e, e.quiet = true → E e) (a : Addr) {l : Option Addr}
    (h : TimeTask.logDel l m = some n) : Local a E m n := by
  cases l with
  | none =>
    cases h
    exact Local.refl a m
  | some l =>
    simp only [TimeTask.logDel] at h
    cases hc : m.logs.cell l with
    | none => simp [hc] at h
    | some u =>
      simp only [hc, Option.some.injEq] at h
      subst h
      exact ((Local.refl a m).logs _).trans (Local.emit a _ (by simpa using hE _ rfl))

theorem dlclose_local (hE : ∀ e, e.quiet = true → E e) (a : Addr) {l : Addr}
    (h : TimeTask.dlclose l m = some n) : Local a E m n := by
  simp only [TimeTask.dlclose] at h
  cases hc : m.libs.cell l with
  | none => simp [hc] at h
  | some u =>
    simp only [hc, Option.some.injEq] at h
    subst h
    exact ⟨⟨rfl, rfl, rfl, rfl, [.dlclose l], rfl, by simpa using hE _ rfl⟩, fun _ _ => rfl⟩

/-- Such a statement changes the node it is about and no other. -/
theorem exec_local (hE : ∀ e, e.quiet = true → E e) {s : Cleanup} (hs : s.plain = true)
    (h : s.exec a m = some n) : Local a E m n := by
  simp only [Cleanup.exec] at h
  cases hc : m.node a with
  | none => simp [hc] at h
  | some c =>
    rw [hc] at h
    cases s with
    | fdate =>
      cases h
      exact Local.update m a fun _ => rfl
    | logDel =>
      simp only at h
      split_ifs at h
      · exact logDel_local hE a h
      · cases h
        exact Local.refl a m
    | ld =>
      cases h
      exact Local.update m a fun _ => rfl
    | dlclose =>
      simp only at h
      cases hl : c.libdata.fdlib with
      | none =>
        rw [hl] at h
        cases h
        exact Local.refl a m
      | some l =>
        rw [hl] at h
        exact dlclose_local hE a h
    | fdlib =>
      cases h
      exact Local.update m a fun _ => rfl
    | next => cases hs
    | free => cases hs

inductive MainEvent (pc : MainPc) : Event → Prop
  | call (a : Addr) (k : Method) (ks : List Method) (h : pc = .method a (k :: ks)) :
      MainEvent pc (.call 0 a k)
  | quiet (e : Event) (h : e.quiet = true) : MainEvent pc e

/-- The steps of main that change the links, the list globals or the heap of nodes. -/
def MainPc.links : MainPc → Bool
  | .malloc _ ok _ => ok
  | .linkHead _ _ _ => true
  | .linkTail _ _ _ => true
  | .unlink _ _ => true
  | .cleanup _ (s :: _) _ => !s.plain
  | _ => false

theorem guards_links {pc : MainPc} (h : pc.guards = false) : pc.links = false := by
  cases pc with
  | malloc _ _ _ => cases h
  | linkHead _ _ _ => cases h
  | linkTail _ _ _ => cases h
  | unlink _ _ => cases h
  | cleanup _ _ _ => cases h
  | _ => rfl

theorem mainStep_keep (dirch : List Byte) (pc : MainPc) (ans : Ans) (m : Mem) (hpc : pc.links = false) :
    Keep (MainEvent pc) m (mainStep dirch pc ans m).2 := by
  have hq : ∀ e : Event, e.quiet = true → MainEvent pc e := fun e he => .quiet e he
  have hemit : ∀ e : Event, e.quiet = true → Keep (MainEvent pc) m (m.emit [e]) := by
    intro e he
    exact Keep.emit m (by simpa using hq e he)
  cases pc with
  | loadFile =>
    simp only [mainStep]
    cases ans.conf <;> exact ⟨rfl, rfl, rfl, rfl, [], by simp, by simp⟩
  | readFile =>
    simp only [mainStep]
    cases ans.files <;> exact ⟨rfl, rfl, rfl, rfl, [], by simp, by simp⟩
  | opendir =>
    simp only [mainStep]
    split_ifs
    · exact hemit .opendir rfl
    · exact Keep.refl m
  | readdir k =>
    simp only [mainStep]
    cases ans.entry with
    | none => exact hemit .closedir rfl
    | some e =>
      simp only
      split_ifs <;> exact Keep.refl m
  | dlopen e k =>
    simp only [mainStep]
    cases e.lib with
    | none => exact Keep.refl m
    | some syms => exact ⟨rfl, rfl, rfl, rfl, [], by simp [dlopen], by simp⟩
  | dlsym i ok k =>
    simp only [mainStep]
    split_ifs
    · cases hd : TimeTask.dlclose i.dirhandletem m with
      | none => exact Keep.refl m
      | some n => exact (dlclose_local hq 0 hd).toKeep
    · exact Keep.refl m
  | malloc i ok k =>
    cases ok with
    | false => exact Keep.refl m
    | true => cases hpc
  | fill tem i fs k =>
    cases fs with
    | nil => exact Keep.refl m
    | cons f fs =>
      refine Keep.update m tem fun c => ?_
      cases f with
      | method k => cases k <;> rfl
      | _ => rfl
  | toSet =>
    simp only [mainStep]
    split_ifs <;> exact Keep.refl m
  | bind chead fs =>
    cases fs with
    | nil => exact Keep.refl m
    | cons f fs =>
      simp only [mainStep]
      repeat' split
      all_goals exact Keep.refl m
  | setFdate a f chead fs => exact Keep.update m a fun _ => rfl
  | setLd a chead fs => exact Keep.update m a fun _ => rfl
  | sweep cyctem =>
    cases cyctem with
    | none => exact Keep.refl m
    | some a =>
      simp only [mainStep]
      repeat' split
      all_goals exact Keep.refl m
  | cleanup a ss cycnext =>
    cases ss with
    | nil => exact Keep.refl m
    | cons s ss =>
      simp only [mainStep]
      cases he : s.exec a m with
      | none => exact Keep.refl m
      | some n => exact (exec_local hq (by simpa [MainPc.links] using hpc) he).toKeep
  | initAt cyctem => cases cyctem <;> exact Keep.refl m
  | method a ks =>
    cases ks with
    | nil =>
      simp only [mainStep]
      cases m.nxt a <;> exact Keep.refl m
    | cons k ks =>
      simp only [mainStep]
      cases m.node a with
      | none => exact Keep.refl m
      | some c =>
        simp only
        split_ifs
        · exact Keep.refl m
        · exact Keep.emit m (by simpa using MainEvent.call a k ks rfl)
  | wait a k ks =>
    have h := (local_methodRet 0 a k ans m (MainEvent.quiet _ rfl : MainEvent (.wait a k ks) _)).toKeep
    simp only [mainStep]
    split_ifs <;> exact h
  | linkHead _ _ _ => cases hpc
  | linkTail _ _ _ => cases hpc
  | unlink _ _ => cases hpc
  | timeInit => exact Keep.refl m
  | pause => exact Keep.refl m
  | END => exact Keep.refl m
  | done => exact Keep.refl m

def OverPc.node : OverPc → Option Addr
  | .before a _ => some a
  | .timeDel a => some a
  | .wait a => some a
  | .after a _ => some a
  | .takeNext a => some a
  | _ => none

def OverPc.plain : OverPc → Bool
  | .before _ ss => ss.all Cleanup.plain
  | .after _ ss => ss.all Cleanup.plain
  | _ => true

inductive OverEvent (who : Nat) (a : Addr) (pc : OverPc) : Event → Prop
  | access : OverEvent who a pc (.access who a)
  | call (h : pc = .timeDel a) : OverEvent who a pc (.call who a .deldate)
  | quiet (e : Event) (h : e.quiet = true) : OverEvent who a pc e

/-- A cleanup statement of gameover dies behind its access or does the cleanup. -/
theorem clean_cases (who : Nat) (a : Addr) (s : Cleanup) (f : Frame) (m : Mem) :
    ∃ n, (touch who a m fun _ m =>
      match s.exec a m with
      | none => crash m
      | some m => (.goto f, m)).2 = n ∧
        (n = m.emit [.access who a] ∨ s.exec a (m.emit [.access who a]) = some n) := by
  simp only [touch]
  cases (m.emit [.access who a]).node a with
  | none => exact ⟨_, rfl, Or.inl rfl⟩
  | some c =>
    simp only
    cases he : s.exec a (m.emit [.access who a]) with
    | none => exact ⟨_, rfl, Or.inl rfl⟩
    | some n => exact ⟨n, rfl, Or.inr rfl⟩

/-- Up to its release gameover changes the node it is at and no other. -/
theorem overStep_local (who : Nat) (sig : Bool) (pc : OverPc) (ans : Ans) (m : Mem) (a : Addr)
    (ha : pc.node = some a) (hp : pc.plain = true) :
    Local a (OverEvent who a pc) m (overStep who sig pc ans m).2 := by
  have hexec : ∀ (s : Cleanup) (n : Mem), s.plain = true →
      (n = m.emit [.access who a] ∨ s.exec a (m.emit [.access who a]) = some n) →
      Local a (OverEvent who a pc) m n := by
    intro s n hs hn
    have hacc : Local a (OverEvent who a pc) m (m.emit [.access who a]) :=
      Local.emit a m (by simpa using .access)
    cases hn with
    | inl hn => exact hn ▸ hacc
    | inr hn => exact hacc.trans (exec_local (fun e h => .quiet e h) hs hn)
  cases pc with
  | before b ss =>
    cases ha
    cases ss with
    | nil => exact Local.refl _ m
    | cons s ss =>
      obtain ⟨n, hn, hs⟩ := clean_cases who a s (.gameover who sig (.before a ss)) m
      rw [show (overStep who sig (.before a (s :: ss)) ans m).2 = n from hn]
      exact hexec s n (List.all_eq_true.mp hp s (by simp)) hs
  | timeDel b =>
    cases ha
    refine touch_local .access fun c => ?_
    split_ifs
    · exact Local.refl _ _
    · exact Local.emit a _ (by simpa using .call rfl)
  | wait b =>
    cases ha
    exact Local.emit a m (by simpa using .quiet _ rfl)
  | after b ss =>
    cases ha
    cases ss with
    | nil => exact Local.refl _ m
    | cons s ss =>
      obtain ⟨n, hn, hs⟩ := clean_cases who a s (.gameover who sig (.after a ss)) m
      rw [show (overStep who sig (.after a (s :: ss)) ans m).2 = n from hn]
      exact hexec s n (List.all_eq_true.mp hp s (by simp)) hs
  | takeNext b =>
    cases ha
    exact touch_local .access fun c => Local.refl _ _
  | _ => cases ha

theorem overStep_log (hE : ∀ e, e.quiet = true → E e) (who : Nat) (sig : Bool) (ans : Ans) (m : Mem)
    (a : Addr) : Local a E m (overStep who sig .log ans m).2 := by
  simp only [overStep]
  cases h : m.logLog ans.lost with
  | none => exact Local.refl a m
  | some n =>
    simp only [Mem.logLog] at h
    cases hl : m.mainld with
    | none =>
      rw [hl] at h
      cases h
      exact Local.refl a m
    | some l =>
      simp only [hl] at h
      cases hc : m.logs.cell l with
      | none => simp [hc] at h
      | some u =>
        simp only [hc] at h
        split_ifs at h
        · exact logDel_local hE a h
        · cases h
          exact Local.refl a m

theorem overStep_start (who : Nat) (sig : Bool) (ans : Ans) (m : Mem) :
    (overStep who sig .start ans m).2 = m := by
  simp only [overStep]
  split_ifs
  · rfl
  · cases m.cychead <;> rfl

end TimeTask
