import TimeTask.Effects
import TimeTask.Isolation
import TimeTask.Release

/-! What gameover shows of the modules: the deldate of each of them, in the order of the list. -/
namespace TimeTask
open Lib

def Event.silent : Event → Bool
  | .call _ _ _ => false
  | .ret _ _ _ _ => false
  | .exit => false
  | _ => true

/-- Nothing has been shown, and no signal has come. -/
structure Silent (m n : Mem) : Prop where
  signals : n.signals = m.signals
  trace : ∃ es, n.trace = m.trace ++ es ∧ ∀ e ∈ es, e.silent = true

theorem silent_filter {es : List Event} (h : ∀ e ∈ es, e.silent = true) :
    es.filter Event.isMethod = [] ∧ .exit ∉ es := by
  refine ⟨List.filter_eq_nil_iff.mpr fun e he hm => ?_, fun he => ?_⟩
  · have hs := h e he
    cases e with
    | call who a k => cases hs
    | ret who a k x => cases hs
    | _ => cases hm
  · cases h _ he

section Silent
variable {m n p : Mem}

theorem Silent.of_eq (hs : n.signals = m.signals) (ht : n.trace = m.trace) : Silent m n :=
  ⟨hs, [], by rw [ht, List.append_nil], fun e he => by cases he⟩

theorem Silent.refl (m : Mem) : Silent m m := .of_eq rfl rfl

theorem Silent.trans (h : Silent m n) (k : Silent n p) : Silent m p := by
  obtain ⟨es, he, hE⟩ := h.trace
  obtain ⟨fs, hf, hF⟩ := k.trace
  refine ⟨k.signals.trans h.signals, es ++ fs, by rw [hf, he, List.append_assoc], fun e hm => ?_⟩
  cases List.mem_append.mp hm with
  | inl hm => exact hE e hm
  | inr hm => exact hF e hm

theorem Silent.emit (m : Mem) {es : List Event} (h : ∀ e ∈ es, e.silent = true) : Silent m (m.emit es) :=
  ⟨rfl, es, rfl, h⟩

theorem Silent.one (m : Mem) {e : Event} (h : e.silent = true) : Silent m (m.emit [e]) :=
  .emit m fun _ hx => List.mem_singleton.mp hx ▸ h

theorem Silent.methodTrace (h : Silent m n) : n.methodTrace = m.methodTrace := by
  obtain ⟨es, he, hE⟩ := h.trace
  rw [Mem.methodTrace, he, List.filter_append, (silent_filter hE).1, List.append_nil]
  rfl

theorem silent_logDel {l : Option Addr} (h : logDel l m = some n) : Silent m n ∧ n.node = m.node ∧ n.cychead = m.cychead := by
  cases l with
  | none =>
    cases h
    exact ⟨.refl m, rfl, rfl⟩
  | some l =>
    simp only [logDel] at h
    cases hc : m.logs.cell l with
    | none => simp [hc] at h
    | some u =>
      simp only [hc, Option.some.injEq] at h
      subst h
      exact ⟨⟨rfl, [.logDel l], rfl, by simp [Event.silent]⟩, rfl, rfl⟩

theorem silent_dlclose {l : Addr} (h : dlclose l m = some n) : Silent m n ∧ n.node = m.node := by
  simp only [dlclose] at h
  cases hc : m.libs.cell l with
  | none => simp [hc] at h
  | some u =>
    simp only [hc, Option.some.injEq] at h
    subst h
    exact ⟨⟨rfl, [.dlclose l], rfl, by simp [Event.silent]⟩, rfl⟩

theorem silent_logLog {lost : Bool} (h : m.logLog lost = some n) :
    Silent m n ∧ n.node = m.node ∧ n.cychead = m.cychead := by
  simp only [Mem.logLog] at h
  cases hl : m.mainld with
  | none =>
    rw [hl] at h
    cases h
    exact ⟨.refl m, rfl, rfl⟩
  | some l =>
    simp only [hl] at h
    cases hc : m.logs.cell l with
    | none => simp [hc] at h
    | some u =>
      simp only [hc] at h
      split_ifs at h
      · exact silent_logDel h
      · cases h
        exact ⟨.refl m, rfl, rfl⟩

/-- The statements of freeCycdata and gameover on a node, and what they leave of the nodes. -/
theorem silent_exec {a : Addr} {s : Cleanup} (h : s.exec a m = some n) :
    Silent m n ∧ (s ≠ .free → ∀ b, (n.node b).map Cycdata.deldate = (m.node b).map Cycdata.deldate) := by
  have hupd : ∀ f : Cycdata → Cycdata, (∀ c, (f c).deldate = c.deldate) →
      ∀ b, ((m.update a f).node b).map Cycdata.deldate = (m.node b).map Cycdata.deldate := by
    intro f hf b
    by_cases hb : b = a
    · rw [hb, Mem.node_update_self, Option.map_map]
      exact congrArg (fun g => (m.node a).map g) (funext hf)
    · rw [Mem.node_update_ne m f hb]
  simp only [Cleanup.exec] at h
  cases hc : m.node a with
  | none => simp [hc] at h
  | some c =>
    simp only [hc] at h
    cases s with
    | fdate =>
      cases h
      exact ⟨.of_eq rfl rfl, fun _ => hupd _ fun _ => rfl⟩
    | logDel =>
      simp only at h
      split_ifs at h
      · obtain ⟨hs, hn, _⟩ := silent_logDel h
        exact ⟨hs, fun _ b => by rw [hn]⟩
      · cases h
        exact ⟨.refl m, fun _ _ => rfl⟩
    | ld =>
      cases h
      exact ⟨.of_eq rfl rfl, fun _ => hupd _ fun _ => rfl⟩
    | dlclose =>
      simp only at h
      cases hl : c.libdata.fdlib with
      | none =>
        rw [hl] at h
        cases h
        exact ⟨.refl m, fun _ _ => rfl⟩
      | some l =>
        rw [hl] at h
        obtain ⟨hs, hn⟩ := silent_dlclose h
        exact ⟨hs, fun _ b => by rw [hn]⟩
    | fdlib =>
      cases h
      exact ⟨.of_eq rfl rfl, fun _ => hupd _ fun _ => rfl⟩
    | next =>
      cases h
      exact ⟨.of_eq rfl rfl, fun _ => hupd _ fun _ => rfl⟩
    | free =>
      cases h
      exact ⟨⟨rfl, [.free a], rfl, by simp [Event.silent]⟩, fun hf => absurd rfl hf⟩

end Silent

/-- What TimeDel shows of a module. -/
def moduleStop (r : Nat → Addr → Method → Ans) (who : Nat) (a : Addr) : Option Cycdata → List Event
  | none => []
  | some c =>
    if c.deldate = none then [] else [.call who a .deldate, .ret who a .deldate (r who a .deldate).ret]

theorem moduleStop_congr (r : Nat → Addr → Method → Ans) (who : Nat) (a : Addr) {s t : Option Cycdata}
    (h : s.map Cycdata.deldate = t.map Cycdata.deldate) : moduleStop r who a s = moduleStop r who a t := by
  cases s with
  | none =>
    cases t with
    | none => rfl
    | some d => cases h
  | some c =>
    cases t with
    | none => cases h
    | some d => simp only [moduleStop, show c.deldate = d.deldate from Option.some.inj h]

/-- Behind gameover at `pc` the modules `t` remain. -/
def Remain (m : Mem) (t : List Addr) : OverPc → Prop
  | .log => m.ListIs t
  | .start => m.ListIs t
  | .before a ss => Chain m.nxt (some a) t ∧ ss.all Cleanup.plain = true
  | .timeDel a => Chain m.nxt (some a) t
  | .wait a => Chain m.nxt (some a) (a :: t)
  | .after a ss => Chain m.nxt (some a) (a :: t) ∧ ss.all Cleanup.plain = true
  | .takeNext a => Chain m.nxt (some a) (a :: t)
  | .free a tem => a ∉ t ∧ Chain m.nxt tem t
  | _ => t = []

def pending (r : Nat → Addr → Method → Ans) (who : Nat) : OverPc → List Event
  | .wait a => [.ret who a .deldate (r who a .deldate).ret]
  | _ => []

/-- Of the methods, gameover has shown all of `total` but what it is still to show. -/
def Closing (r : Nat → Addr → Method → Ans) (who : Nat) (start total : List Event) (pc : OverPc) (m : Mem) : Prop :=
  ∃ t ys, m.trace = start ++ ys ∧ .exit ∉ ys ∧ Remain m t pc ∧
    ys.filter Event.isMethod ++ pending r who pc ++ t.flatMap (fun b => moduleStop r who b (m.node b)) = total

section Stop
variable {r : Nat → Addr → Method → Ans} {who : Nat} {sig : Bool} {start total : List Event} {m : Mem}

theorem Closing.silent {pc pc' : OverPc} {n : Mem} (h : Closing r who start total pc m) (hs : Silent m n)
    (hp : pending r who pc' = pending r who pc) (hn : ∀ t, Remain m t pc → Remain n t pc' ∧
      ∀ b ∈ t, (n.node b).map Cycdata.deldate = (m.node b).map Cycdata.deldate) :
    Closing r who start total pc' n := by
  obtain ⟨t, ys, ht, hex, hr, htot⟩ := h
  obtain ⟨es, he, hE⟩ := hs.trace
  obtain ⟨hnone, hexit⟩ := silent_filter hE
  obtain ⟨hr', hsame⟩ := hn t hr
  refine ⟨t, ys ++ es, by rw [he, ht, List.append_assoc], by simp [hex, hexit], hr', ?_⟩
  rw [List.filter_append, hnone, List.append_nil, hp, ← htot]
  congr 1
  exact List.flatMap_congr fun b hb => moduleStop_congr r who b (hsame b hb)

abbrev Closes (r : Nat → Addr → Method → Ans) (who : Nat) (sig : Bool) (start total : List Event)
    (p : Ctl Frame × Mem) : Prop :=
  p.1.Stays fun g => ∃ pc, g = .gameover who sig pc ∧ Closing r who start total pc p.2

theorem Closing.walk {pc : OverPc} {n : Mem} {p : Option Addr} {q : Ctl Frame × Mem} (hq : q = match p with
      | none => (.goto (.gameover who sig .cychead), n)
      | some a => (.goto (.gameover who sig (.before a [.fdate, .logDel, .ld])), n))
    (h : Closing r who start total pc m) (hs : Silent m n) (hp : pending r who pc = [])
    (hn : ∀ t, Remain m t pc → Chain n.nxt p t ∧
      ∀ b ∈ t, (n.node b).map Cycdata.deldate = (m.node b).map Cycdata.deldate) :
    Closes r who sig start total q := by
  subst hq
  cases p with
  | none =>
    refine ⟨.cychead, rfl, h.silent hs hp.symm fun t ht => ⟨?_, (hn t ht).2⟩⟩
    exact chain_none (hn t ht).1
  | some a => exact ⟨_, rfl, h.silent hs hp.symm fun t ht => ⟨⟨(hn t ht).1, rfl⟩, (hn t ht).2⟩⟩

theorem Closing.clean {a : Addr} {s : Cleanup} {pc pc' : OverPc} (h : Closing r who start total pc m)
    (hplain : s.plain = true) (hp : pending r who pc' = pending r who pc)
    (hn : ∀ n t, n.nxt = m.nxt → Remain m t pc → Remain n t pc') :
    Closes r who sig start total (touch who a m fun _ m =>
      match s.exec a m with
      | none => crash m
      | some m => (.goto (.gameover who sig pc'), m)) := by
  simp only [touch]
  cases (m.emit [.access who a]).node a with
  | none => trivial
  | some c =>
    simp only
    cases he : s.exec a (m.emit [.access who a]) with
    | none => trivial
    | some n =>
      obtain ⟨hs, hnode⟩ := silent_exec he
      have hnxt : n.nxt = m.nxt := (exec_local (E := fun _ => True) (fun _ _ => trivial) hplain he).nxt
      have hfree : s ≠ .free := fun hf => by rw [hf] at hplain; cases hplain
      exact ⟨pc', rfl, h.silent ((Silent.one m rfl).trans hs) hp fun t ht => ⟨hn n t hnxt ht, fun b _ => hnode hfree b⟩⟩

theorem Closing.timeDel {a : Addr} (h : Closing r who start total (.timeDel a) m) (ans : Ans) :
    Closes r who sig start total (overStep who sig (.timeDel a) ans m) := by
  obtain ⟨t, ys, ht, hex, hr, htot⟩ := h
  obtain ⟨k, p, hk, hnx, hch⟩ := chain_some (show Chain m.nxt (some a) t from hr)
  subst hk
  obtain ⟨c, hc, _⟩ := Option.map_eq_some_iff.mp hnx
  have hc₁ : (m.emit [.access who a]).node a = some c := hc
  have hstop : moduleStop r who a (m.node a) = if c.deldate = none then [] else
      [.call who a .deldate, .ret who a .deldate (r who a .deldate).ret] := by
    rw [show m.node a = some c from hc]
    rfl
  rw [List.flatMap_cons, hstop] at htot
  simp only [Closes, overStep, touch, hc₁]
  by_cases hd : c.deldate = none
  · rw [if_pos hd]
    rw [if_pos hd, List.nil_append] at htot
    refine ⟨_, rfl, k, ys ++ [.access who a], ?_, by simp [hex], ⟨hr, rfl⟩, ?_⟩
    · rw [Mem.emit, ht, List.append_assoc]
    · simpa [pending, Event.isMethod, Mem.emit, Mem.node] using htot
  · rw [if_neg hd]
    rw [if_neg hd] at htot
    refine ⟨_, rfl, k, ys ++ [.access who a, .call who a .deldate], ?_, by simp [hex], hr, ?_⟩
    · simp [Mem.emit, ht]
    · rw [List.filter_append, ← htot, List.append_assoc, List.append_assoc, List.append_assoc]
      rfl

theorem Closing.step (sig : Bool) (pc : OverPc) (h : Closing r who start total pc m) (hpc : pc ≠ .exit) :
    Closes r who sig start total (overStep who sig pc (replies r (.gameover who sig pc)) m) := by
  have hsame : ∀ {n : Mem} {t : List Addr}, n.node = m.node →
      ∀ b ∈ t, (n.node b).map Cycdata.deldate = (m.node b).map Cycdata.deldate := fun hn b _ => by rw [hn]
  have hnxt : ∀ {n : Mem}, n.node = m.node → n.nxt = m.nxt := fun hn => by
    funext b
    rw [Mem.nxt_eq, Mem.nxt_eq, hn]
  cases pc with
  | log =>
    simp only [Closes, overStep]
    cases hl : m.logLog (replies r (.gameover who sig .log)).lost with
    | none => trivial
    | some n =>
      obtain ⟨hs, hn, hh⟩ := silent_logLog hl
      refine ⟨.start, rfl, h.silent hs rfl fun t ht => ⟨?_, hsame hn⟩⟩
      have hl : m.ListIs t := ht
      rw [Remain, Mem.ListIs, hnxt hn, hh]
      exact hl
  | start =>
    simp only [overStep]
    split_ifs
    · trivial
    · exact Closing.walk rfl h (Silent.refl m) rfl fun t ht => ⟨ht, fun _ _ => rfl⟩
  | before a ss =>
    cases ss with
    | nil => exact ⟨_, rfl, h.silent (Silent.refl m) rfl fun t ht => ⟨ht.1, fun _ _ => rfl⟩⟩
    | cons s ss =>
      have hall : (s :: ss).all Cleanup.plain = true := by
        obtain ⟨_, _, _, _, ⟨_, hall⟩, _⟩ := h
        exact hall
      rw [List.all_cons, Bool.and_eq_true] at hall
      exact h.clean hall.1 rfl fun n t hn ht => ⟨hn ▸ ht.1, hall.2⟩
  | timeDel a => exact h.timeDel _
  | wait a =>
    obtain ⟨t, ys, ht, hex, hr, htot⟩ := h
    refine ⟨_, rfl, t, ys ++ [.ret who a .deldate (r who a .deldate).ret], ?_, by simp [hex], ⟨hr, rfl⟩, ?_⟩
    · rw [← List.append_assoc, ← ht]
      rfl
    · rw [List.filter_append, ← htot, List.append_assoc, List.append_assoc, List.append_assoc]
      rfl
  | after a ss =>
    cases ss with
    | nil => exact ⟨_, rfl, h.silent (Silent.refl m) rfl fun t ht => ⟨ht.1, fun _ _ => rfl⟩⟩
    | cons s ss =>
      have hall : (s :: ss).all Cleanup.plain = true := by
        obtain ⟨_, _, _, _, ⟨_, hall⟩, _⟩ := h
        exact hall
      rw [List.all_cons, Bool.and_eq_true] at hall
      exact h.clean hall.1 rfl fun n t hn ht => ⟨hn ▸ ht.1, hall.2⟩
  | takeNext a =>
    simp only [Closes, overStep, touch]
    cases hc : (m.emit [.access who a]).node a with
    | none => trivial
    | some c =>
      refine ⟨_, rfl, h.silent (Silent.one m rfl) rfl fun t ht => ⟨?_, fun _ _ => rfl⟩⟩
      have hch : Chain m.nxt (some a) (a :: t) := ht
      obtain ⟨_, p, hp, hl⟩ := hch
      have hcp : c.next = p := Option.some.inj ((Mem.nxt_of_node hc).symm.trans hp)
      exact ⟨(List.nodup_cons.mp (chain_nodup ht)).1, hcp ▸ hl⟩
  | free a tem =>
    simp only [overStep]
    cases he : Cleanup.exec a m .free with
    | none => trivial
    | some n =>
      obtain ⟨hs, _⟩ := silent_exec he
      have hn : ∀ b, b ≠ a → n.node b = m.node b := by
        intro b hb
        simp only [Cleanup.exec] at he
        cases hc : m.node a with
        | none => simp [hc] at he
        | some c =>
          simp only [hc, Option.some.injEq] at he
          subst he
          exact Heap.cell_free_ne _ hb
      refine Closing.walk rfl h hs rfl fun t ht => ?_
      have hne : ∀ b ∈ t, b ≠ a := fun b hb hba => ht.1 (hba ▸ hb)
      refine ⟨chain_congr (fun b hb => ?_) ht.2, fun b hb => by rw [hn b (hne b hb)]⟩
      rw [Mem.nxt_eq, Mem.nxt_eq, hn b (hne b hb)]
  | cychead => exact ⟨_, rfl, h.silent (.of_eq rfl rfl) rfl fun t ht => ⟨ht, fun _ _ => rfl⟩⟩
  | cycheadnext => exact ⟨_, rfl, h.silent (.of_eq rfl rfl) rfl fun t ht => ⟨ht, fun _ _ => rfl⟩⟩
  | shead =>
    simp only [overStep]
    split_ifs
    · exact ⟨_, rfl, h.silent (Silent.refl m) rfl fun t ht => ⟨ht, fun _ _ => rfl⟩⟩
    · exact ⟨_, rfl, h.silent ⟨rfl, [.freeShead], rfl, by simp [Event.silent]⟩ rfl fun t ht => ⟨ht, fun _ _ => rfl⟩⟩
  | filehead =>
    refine ⟨_, rfl, h.silent ⟨rfl, freeFiledate m.filehead, rfl, fun e he => ?_⟩ rfl fun t ht => ⟨ht, fun _ _ => rfl⟩⟩
    obtain ⟨x, rfl⟩ | ⟨x, rfl⟩ := freeFiledate_events he <;> rfl
  | logDel =>
    simp only [overStep]
    cases hl : logDel m.mainld m with
    | none => trivial
    | some n =>
      obtain ⟨hs, hn, _⟩ := silent_logDel hl
      exact ⟨_, rfl, h.silent hs rfl fun t ht => ⟨ht, hsame hn⟩⟩
  | mainld => exact ⟨_, rfl, h.silent (.of_eq rfl rfl) rfl fun t ht => ⟨ht, fun _ _ => rfl⟩⟩
  | exit => exact absurd rfl hpc

/-- A step that dies has read its node at most. -/
theorem overStep_crash (who : Nat) (sig : Bool) (pc : OverPc) (ans : Ans) (m : Mem) (hpc : pc ≠ .exit) (hh : (overStep who sig pc ans m).1 = .halt) :
    ∃ es, (overStep who sig pc ans m).2.trace = m.trace ++ es ∧ .exit ∉ es := by
  have htouch : ∀ (a : Addr) (k : Cycdata → Mem → Ctl Frame × Mem), (∀ c n, (k c n).1 = .halt → (k c n).2 = n) →
      (touch who a m k).1 = .halt → ∃ es, (touch who a m k).2.trace = m.trace ++ es ∧ .exit ∉ es := by
    intro a k hk h
    refine ⟨[.access who a], ?_, by simp⟩
    simp only [touch] at h ⊢
    cases hc : (m.emit [.access who a]).node a with
    | none => rfl
    | some c =>
      rw [hc] at h
      exact congrArg Mem.trace (hk c _ h)
  have hexec : ∀ (s : Cleanup) (a : Addr) (g : Frame) (n : Mem), (match s.exec a n with
      | none => crash n
      | some p => (.goto g, p) : Ctl Frame × Mem).1 = .halt → (match s.exec a n with
      | none => crash n
      | some p => (.goto g, p) : Ctl Frame × Mem).2 = n := by
    intro s a g n h
    cases he : s.exec a n with
    | none => rfl
    | some p =>
      rw [he] at h
      cases h
  have hwalk : ∀ (p : Option Addr) (n : Mem), (match p with
      | none => (.goto (.gameover who sig .cychead), n)
      | some a => (.goto (.gameover who sig (.before a [.fdate, .logDel, .ld])), n) :
        Ctl Frame × Mem).1 ≠ .halt := by
    intro p n h
    cases p <;> cases h
  cases pc with
  | log =>
    simp only [overStep] at hh ⊢
    cases hl : m.logLog ans.lost with
    | none => exact ⟨[], (List.append_nil _).symm, List.not_mem_nil⟩
    | some n =>
      rw [hl] at hh
      cases hh
  | start =>
    simp only [overStep] at hh
    split_ifs at hh
    exact absurd hh (hwalk _ m)
  | before a ss =>
    cases ss with
    | nil => cases hh
    | cons s ss => exact htouch a _ (fun c n => hexec s a _ n) hh
  | timeDel a =>
    refine htouch a _ (fun c n h => ?_) hh
    simp only at h
    split_ifs at h
  | after a ss =>
    cases ss with
    | nil => cases hh
    | cons s ss => exact htouch a _ (fun c n => hexec s a _ n) hh
  | takeNext a => exact htouch a _ (fun c n h => by cases h) hh
  | free a tem =>
    simp only [overStep] at hh ⊢
    cases he : Cleanup.exec a m .free with
    | none => exact ⟨[], (List.append_nil _).symm, List.not_mem_nil⟩
    | some n =>
      rw [he] at hh
      exact absurd hh (hwalk tem n)
  | shead =>
    simp only [overStep] at hh
    split_ifs at hh
  | logDel =>
    simp only [overStep] at hh ⊢
    cases hl : logDel m.mainld m with
    | none => exact ⟨[], (List.append_nil _).symm, List.not_mem_nil⟩
    | some n =>
      rw [hl] at hh
      cases hh
  | exit => exact absurd rfl hpc
  | _ => cases hh

/-- A gameover that gets to exit has called the deldate of every module on the list, in its order. -/
theorem stop_shows (dirch : List Byte) (r : Nat → Addr → Method → Ans) (who : Nat) (sig : Bool) {m m' : Mem}
    {mods : List Addr} (h : m.ListIs mods) {es : List Event} (ht : m'.trace = m.trace ++ es ++ [.exit])
    (hl : Leaves (overBody dirch (replies r)) (.gameover who sig .log, m) (false, m')) :
    m'.methodTrace = m.methodTrace ++ mods.flatMap fun a => moduleStop r who a (m.node a) := by
  obtain ⟨⟨f, q⟩, hgo, hlast⟩ := hl.last
  have h0 : Closing r who m.trace (mods.flatMap fun a => moduleStop r who a (m.node a)) .log m :=
    ⟨mods, [], (List.append_nil _).symm, List.not_mem_nil, h, rfl⟩
  have hkeep : ∃ pc, f = .gameover who sig pc ∧
      Closing r who m.trace (mods.flatMap fun a => moduleStop r who a (m.node a)) pc q := by
    refine hgo.keep (I := fun s => ∃ pc, s.1 = .gameover who sig pc ∧
      Closing r who m.trace (mods.flatMap fun a => moduleStop r who a (m.node a)) pc s.2) ⟨.log, rfl, h0⟩ ?_
    rintro ⟨g, n⟩ b ⟨pc, hg, hn⟩ hb
    have hg : g = .gameover who sig pc := hg
    subst hg
    simp only [Machine.soloBody, daemon] at hb
    by_cases hpc : pc = .exit
    · subst hpc
      cases hb
    · have hs := hn.step sig pc hpc
      cases hk : overStep who sig pc (replies r (.gameover who sig pc)) n with
      | mk k p =>
        rw [hk] at hb hs
        cases k with
        | goto x =>
          cases hb
          exact hs
        | _ => cases hb
  obtain ⟨pc, hf, t, ys, hq, hex, hr, htot⟩ := hkeep
  subst hf
  simp only [Machine.soloBody, daemon] at hlast
  by_cases hpc : pc = .exit
  · subst hpc
    cases hlast
    have hnil : t = [] := hr
    rw [hnil, List.flatMap_nil, List.append_nil] at htot
    rw [methodTrace_emit, Mem.methodTrace, hq, List.filter_append, ← htot]
    simp [pending, Event.isMethod, Mem.methodTrace]
  · -- the process has not died elsewhere, for the last thing that it did was to exit
    have hstay := overStep_stays who sig pc (replies r (.gameover who sig pc)) q
    have hcrash := overStep_crash who sig pc (replies r (.gameover who sig pc)) q hpc
    cases hk : overStep who sig pc (replies r (.gameover who sig pc)) q with
    | mk k p =>
      rw [hk] at hlast hstay hcrash
      cases k with
      | halt =>
        cases hlast
        obtain ⟨zs, hz, hexz⟩ := hcrash rfl
        rw [hz, hq, List.append_assoc, List.append_assoc] at ht
        have hmem : Event.exit ∈ ys ++ zs := by
          rw [List.append_cancel_left ht]
          simp
        cases List.mem_append.mp hmem with
        | inl hy => exact absurd hy hex
        | inr hzm => exact absurd hzm hexz
      | call x y => exact hstay.elim
      | _ => cases hlast

end Stop

end TimeTask
