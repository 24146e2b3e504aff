import TimeTask.Holdings

/-! When a timer signal is harmless: before the first module is on the list, and from the end of
TimeInit on. -/
namespace TimeTask
open Lib

/-- Of init and login only those of `ks` can still be missing. -/
def Tried (m : Mem) (a : Addr) (ks : List Method) : Prop :=
  ∀ c, m.node a = some c → ∀ k ∈ [Method.init, .login], k ∉ ks → c.method k ≠ none →
    ∃ w r, Event.ret w a k r ∈ m.trace ∧ 0 ≤ r

/-- TimeInit has come to `p` and has initialised the modules in front of it. -/
def Covered (m : Mem) (p : Option Addr) : Prop := ∃ l, Seg m.nxt m.cychead l p ∧ ∀ b ∈ l, Inited m b

/-- What TimeInit has reached. -/
def Reached (m : Mem) : MainPc → Prop
  | .initAt p => Covered m p
  | .method a ks => Covered m (some a) ∧ Tried m a ks
  | .wait a k ks => Covered m (some a) ∧ Tried m a (k :: ks)
  | .pause => Covered m none
  | _ => True

theorem Work.past {m n : Mem} (h : Work m n) : m.trace ⊆ n.trace := by
  cases h with
  | emit es => exact List.subset_append_left m.trace es
  | signals k => exact List.Subset.refl _
  | tidata a g => exact List.Subset.refl _
  | openLog a => exact List.Subset.refl _
  | lose x hx => exact List.subset_append_left m.trace _

theorem fixed_method {c d : Cycdata} (h : d.fixed = c.fixed) (k : Method) : d.method k = c.method k := by
  have hm := congrArg (fun e => Cycdata.method e k) h
  cases k <;> exact hm

section Work
variable {m n : Mem}

theorem Inited.work {a : Addr} (h : Inited m a) (hw : Work m n) : Inited n a := by
  obtain ⟨c, hc, hi⟩ := h
  obtain ⟨d, hd, hdc⟩ := hw.steady.cell hc
  refine ⟨d, hd, fun k hk hne => ?_⟩
  rw [fixed_method hdc] at hne
  obtain ⟨w, r, hr, h0⟩ := hi k hk hne
  exact ⟨w, r, hw.past hr, h0⟩

theorem Tried.work {a : Addr} {ks : List Method} (h : Tried m a ks) (hw : Work m n) : Tried n a ks := by
  intro d hd k hk hks hne
  obtain ⟨c, hc, hcd⟩ := hw.steady.back hd
  rw [← fixed_method hcd] at hne
  obtain ⟨w, r, hr, h0⟩ := h c hc k hk hks hne
  exact ⟨w, r, hw.past hr, h0⟩

theorem Covered.work {p : Option Addr} (h : Covered m p) (hw : Work m n) : Covered n p := by
  obtain ⟨l, hl, hi⟩ := h
  rw [← hw.steady.nxt, ← hw.steady.head] at hl
  exact ⟨l, hl, fun b hb => (hi b hb).work hw⟩

theorem Reached.work {pc : MainPc} (h : Reached m pc) (hw : Work m n) : Reached n pc := by
  cases pc with
  | initAt p => exact Covered.work h hw
  | method a ks => exact ⟨h.1.work hw, h.2.work hw⟩
  | wait a k ks => exact ⟨h.1.work hw, h.2.work hw⟩
  | pause => exact Covered.work h hw
  | _ => trivial

theorem Reached.works {pc : MainPc} (h : Reached m pc) (hw : Works m n) : Reached n pc := by
  induction hw with
  | refl => exact h
  | tail _ hw ih => exact ih.work hw

end Work

/-- main comes to TimeInit at its start. -/
theorem mainStep_settles (dirch : List Byte) {pc : MainPc} (ans : Ans) (m : Mem) (hs : pc.settled = false)
    (ho : pc.over = false) : (mainStep dirch pc ans m).1.Stays fun g =>
      ∃ q, g = .main q ∧ (q.settled = true → q = .timeInit) := by
  cases pc with
  | fill tem i fs n => cases fs <;> exact ⟨_, rfl, fun h => by cases h⟩
  | readdir n =>
    simp only [mainStep]
    cases ans.entry with
    | none => exact ⟨_, rfl, fun h => by split_ifs at h <;> cases h⟩
    | some e =>
      simp only
      split_ifs
      · exact ⟨_, rfl, fun h => by cases h⟩
      · trivial
      · exact ⟨_, rfl, fun h => by cases h⟩
  | sweep cyctem =>
    cases cyctem with
    | none => exact ⟨_, rfl, fun _ => rfl⟩
    | some a =>
      simp only [mainStep]
      cases m.node a with
      | none => trivial
      | some c =>
        simp only
        split_ifs <;> exact ⟨_, rfl, fun h => by cases h⟩
  | bind chead fs =>
    cases fs with
    | nil => exact ⟨_, rfl, fun h => by cases h⟩
    | cons f fs =>
      simp only [mainStep]
      repeat' split
      all_goals first | trivial | exact ⟨_, rfl, fun h => by cases h⟩
  | cleanup a ss cycnext =>
    cases ss with
    | nil => exact ⟨_, rfl, fun h => by cases h⟩
    | cons s ss => exact exec_stays ⟨_, rfl, fun h => by cases h⟩ m (s.exec a m)
  | timeInit => cases hs
  | initAt p => cases hs
  | method a ks => cases hs
  | wait a k ks => cases hs
  | pause => cases hs
  | END => cases ho
  | done => cases ho
  | _ =>
    simp only [mainStep]
    repeat' split
    all_goals first | trivial | exact ⟨_, rfl, fun h => by cases h⟩

abbrev StepReached (r : Ctl Frame × Mem) : Prop := r.1.Stays fun g => ∃ q, g = .main q ∧ Reached r.2 q

/-- One statement of main. -/
theorem mainStep_reached (dirch : List Byte) {pc : MainPc} (ans : Ans) {m : Mem} (ho : pc.over = false)
    (h : Reached m pc) : StepReached (mainStep dirch pc ans m) := by
  cases hs : pc.settled with
  | false =>
    refine (mainStep_settles dirch ans m hs ho).imp ?_
    rintro g ⟨q, rfl, hq⟩
    refine ⟨q, rfl, ?_⟩
    cases hqs : q.settled with
    | true =>
      rw [hq hqs]
      trivial
    | false => cases q <;> trivial
  | true =>
    cases pc with
    | timeInit => exact ⟨_, rfl, [], rfl, fun b hb => by cases hb⟩
    | initAt p =>
      cases p with
      | none => exact ⟨_, rfl, h⟩
      | some a => exact ⟨_, rfl, h, fun c _ k hk hks => absurd hk hks⟩
    | method a ks =>
      obtain ⟨⟨l, hl, hi⟩, ht⟩ := h
      cases ks with
      | nil =>
        simp only [mainStep]
        cases hn : m.nxt a with
        | none => trivial
        | some r =>
          -- init and login of `a` are through
          obtain ⟨c, hc, _⟩ := Option.map_eq_some_iff.mp ((Mem.nxt_eq m a).symm.trans hn)
          refine ⟨_, rfl, l ++ [a], seg_append.mpr ⟨some a, hl, rfl, r, hn, rfl⟩, fun b hb => ?_⟩
          cases List.mem_append.mp hb with
          | inl hb => exact hi b hb
          | inr hb =>
            rw [List.mem_singleton.mp hb]
            exact ⟨c, hc, fun k hk => ht c hc k hk List.not_mem_nil⟩
      | cons k ks =>
        simp only [mainStep]
        cases hc : m.node a with
        | none => trivial
        | some c =>
          simp only
          split_ifs with hk
          · refine ⟨_, rfl, ⟨l, hl, hi⟩, fun d hd j hj hjs hne => ht d hd j hj ?_ hne⟩
            rw [List.mem_cons, not_or]
            refine ⟨fun he => hne ?_, hjs⟩
            rw [he, Option.some.inj (hd.symm.trans hc)]
            exact hk
          · have hw : Work m (m.emit [.call 0 a k]) := .emit m _
            exact ⟨_, rfl, Covered.work ⟨l, hl, hi⟩ hw, ht.work hw⟩
    | wait a k ks =>
      have hw : Works m (m.methodRet 0 a k ans) := works_methodRet 0 a k ans m
      obtain ⟨hcov, htried⟩ : Reached (m.methodRet 0 a k ans) (.wait a k ks) := h.works hw
      simp only [mainStep]
      split_ifs with hret
      · exact ⟨_, rfl, trivial⟩
      · refine ⟨_, rfl, hcov, fun d hd j hj hjs hne => ?_⟩
        by_cases hjk : j = k
        · refine ⟨0, ans.ret, ?_, by omega⟩
          rw [hjk, methodRet_trace]
          simp
        · exact htried d hd j hj (by simp [hjk, hjs]) hne
    | pause => exact ⟨_, rfl, h⟩
    | _ => cases hs

theorem reached_inv (dirch : List Byte) : MainInv dirch (fun _ => True) Reached := by
  refine ⟨fun pc ans m _ ho h q hq => ?_, fun who q ans m _ h => h.works (tickStep_works who q ans m),
    fun m k _ h => h.work (.signals m k)⟩
  obtain ⟨q', he, hr⟩ := (mainStep_reached dirch ans ho h).frames _ hq
  cases he
  exact hr

theorem reached_run {dirch : List Byte} {ok : Config Frame Mem → Label Ans Signal → Prop}
    (hno : ∀ c, ¬ ok c (.signal .usr1)) {c : Config Frame Mem} (hr : (daemon dirch).Reach ok daemonStart c) :
    ∀ pc, .main pc ∈ c.stack → pc.over = false → Reached c.mem pc := by
  have hst : ∀ d, (daemon dirch).Reach ok daemonStart d → d.stack.Pairwise Frame.Upon := fun d hd =>
    (upon_sits dirch hno).reach hd (by simp [daemonStart])
  refine hr.keep (I := fun c => ∀ pc, .main pc ∈ c.stack → pc.over = false → Reached c.mem pc) ?_ ?_
  · intro pc hpc _
    cases List.mem_singleton.mp hpc
    trivial
  · intro d l e hd hI hok hn
    refine (reached_inv dirch).next (hst d hd) hI (fun _ _ => trivial) (fun he => ?_) hn
    rw [he] at hok
    exact hno d hok

/-- Before the first module. -/
theorem ready_empty {m : Mem} (h : m.cychead = none) : Ready m m.cychead := by
  rw [h]
  exact ready_of_chain (l := []) rfl fun b hb => by cases hb

/-- While main waits for signals, behind TimeInit. -/
theorem ready_pause {dirch : List Byte} {ok : Config Frame Mem → Label Ans Signal → Prop}
    (hno : ∀ c, ¬ ok c (.signal .usr1)) {c : Config Frame Mem} (hr : (daemon dirch).Reach ok daemonStart c)
    (hp : .main .pause ∈ c.stack) : Ready c.mem c.mem.cychead := by
  obtain ⟨l, hl, hi⟩ := reached_run hno hr .pause hp rfl
  exact ready_of_chain hl fun b hb => Or.inl (hi b hb)

/-- Only timer signals, each of them before the first module is on the list or while main waits. -/
def OffStartup (c : Config Frame Mem) : Label Ans Signal → Prop
  | .run _ => True
  | .signal .alarm => c.mem.cychead = none ∨ .main .pause ∈ c.stack
  | .signal .usr1 => False

/-- Such signals are harmless: no tick that they start calls a method of a module that has not been
initialised. -/
theorem offStartup_ready {dirch : List Byte} {c : Config Frame Mem}
    (hr : (daemon dirch).Reach OffStartup daemonStart c) : (daemon dirch).Reach TimerReady daemonStart c := by
  refine hr.keep (I := fun c => (daemon dirch).Reach TimerReady daemonStart c) .refl fun d l e hd hI hok hn => hI.step ?_ hn
  cases l with
  | run ans => trivial
  | signal s =>
    cases s with
    | usr1 => exact hok
    | alarm =>
      cases hok with
      | inl hc => exact ready_empty hc
      | inr hp => exact ready_pause (fun _ h => h) hd hp

end TimeTask
