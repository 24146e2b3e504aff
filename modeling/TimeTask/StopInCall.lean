import TimeTask.Holdings
import TimeTask.Teardown

/-! The stop signal in the middle of a module call: which modules gameover releases there. -/
namespace TimeTask
open Lib

/-- Below the gameover that main calls no module is in a call. -/
def Frame.calm (f g : Frame) : Prop :=
  f.above g = true ∧ ∀ who pc, f = .gameover who false pc → g.inCall = none

theorem calm_sits (dirch : List Byte) : (daemon dirch).Sits (fun _ _ => True) Frame.calm := by
  have hs := daemon_sits dirch fun _ _ => True
  refine ⟨fun f ans m g hfg h hh => ⟨hs.step f ans m g hfg.1 h hh, fun who pc hh' => ?_⟩,
    fun f ans m g h hc => ⟨hs.call f ans m g h hc, fun _ _ _ => ?_⟩,
    fun c s hok hb g hg => ⟨hs.enter c s hok hb g hg, fun who pc he => ?_⟩⟩
  · subst hh'
    cases f with
    | main q => cases hfg.1
    | tick who' q =>
      obtain ⟨q', hq⟩ := (tickStep_stays who' q ans m).frames _ hh
      cases hq
    | gameover who' sig q =>
      obtain ⟨q', hq⟩ := (overStep_stays who' sig q ans m).frames _ hh
      cases hq
      exact hfg.2 who q rfl
  · rw [(daemon_call dirch hc).1]
    rfl
  · cases s <;> cases he

/-- Only gameover itself goes on as the handler `who`. -/
theorem handler_new (dirch : List Byte) (who : Nat) (f : Frame) (ans : Ans) (m : Mem)
    (hf : ¬ ∃ pc, f = .gameover who true pc) :
    ∀ g ∈ ((daemon dirch).step f ans m).1.frames, ¬ ∃ pc, g = .gameover who true pc := by
  rintro g hg ⟨pc, rfl⟩
  cases f with
  | main q =>
    by_cases hq : q = .END
    · subst hq
      simp [daemon, mainStep, Ctl.frames] at hg
    · obtain ⟨q', hq', _⟩ := (mainStep_stays dirch q ans m hq).frames _ hg
      cases hq'
  | tick who' q =>
    obtain ⟨q', hq⟩ := (tickStep_stays who' q ans m).frames _ hg
    cases hq
  | gameover who' sig q =>
    obtain ⟨q', hq⟩ := (overStep_stays who' sig q ans m).frames _ hg
    cases hq
    exact hf ⟨q, rfl⟩

/-- What gameover at `pc` has to find of the modules `mods`. -/
def OnList (mods : List Addr) (m : Mem) : OverPc → Prop
  | .log => m.ListIs mods
  | .start => m.ListIs mods
  | .free a tem => ∃ t, t <:+ mods ∧ a ∉ t ∧ Chain m.nxt tem t
  | pc => pc.plain = true ∧ ∀ a, pc.node = some a → ∃ t, a :: t <:+ mods ∧ Chain m.nxt (some a) (a :: t)

section Walk
variable {mods : List Addr} {m : Mem}

abbrev NextOnList (mods : List Addr) (who : Nat) (sig : Bool) (q : Ctl Frame × Mem) : Prop :=
  q.1.Stays fun g => ∃ pc, g = .gameover who sig pc ∧ OnList mods q.2 pc

theorem onList_walk (who : Nat) (sig : Bool) {n : Mem} {p : Option Addr} {t : List Addr} {q : Ctl Frame × Mem}
    (hq : q = match p with
      | none => (.goto (.gameover who sig .cychead), n)
      | some a => (.goto (.gameover who sig (.before a [.fdate, .logDel, .ld])), n))
    (ht : t <:+ mods) (hc : Chain n.nxt p t) : NextOnList mods who sig q := by
  subst hq
  cases p with
  | none => exact ⟨.cychead, rfl, rfl, fun _ ha => by cases ha⟩
  | some a =>
    obtain ⟨k, q, rfl, _, _⟩ := chain_some hc
    refine ⟨_, rfl, rfl, fun b hb => ?_⟩
    cases hb
    exact ⟨k, ht, hc⟩

/-- One statement of gameover. -/
theorem OnList.step (who : Nat) (sig : Bool) {pc : OverPc} (ans : Ans) (h : OnList mods m pc) :
    NextOnList mods who sig (overStep who sig pc ans m) := by
  -- at a node gameover changes no link, and stays there up to takeNext
  have hnode : ∀ a, pc.node = some a → pc.plain = true → (∀ c, pc ≠ .takeNext c) →
      (∃ t, a :: t <:+ mods ∧ Chain m.nxt (some a) (a :: t)) →
      NextOnList mods who sig (overStep who sig pc ans m) := by
    intro a ha hp hnext ht
    have hnxt := (overStep_local who sig pc ans m a ha hp).nxt
    have hat : ∃ t, a :: t <:+ mods ∧ Chain (overStep who sig pc ans m).2.nxt (some a) (a :: t) := by
      rw [hnxt]
      exact ht
    refine (overStep_goes who sig pc ans m a ha).imp ?_
    rintro g ⟨pc', rfl, hg⟩
    refine ⟨pc', rfl, ?_⟩
    cases pc with
    | before b ss =>
      cases ss with
      | nil =>
        subst hg
        exact ⟨rfl, fun x hx => Option.some.inj hx ▸ hat⟩
      | cons s ss =>
        subst hg
        exact ⟨(Bool.and_eq_true _ _ ▸ hp).2, fun x hx => Option.some.inj hx ▸ hat⟩
    | timeDel b =>
      obtain ⟨c, _, ⟨_, rfl⟩ | ⟨_, rfl⟩⟩ := hg
      all_goals exact ⟨rfl, fun x hx => Option.some.inj hx ▸ hat⟩
    | wait b =>
      subst hg
      exact ⟨rfl, fun x hx => Option.some.inj hx ▸ hat⟩
    | after b ss =>
      cases ss with
      | nil =>
        subst hg
        exact ⟨rfl, fun x hx => Option.some.inj hx ▸ hat⟩
      | cons s ss =>
        subst hg
        exact ⟨(Bool.and_eq_true _ _ ▸ hp).2, fun x hx => Option.some.inj hx ▸ hat⟩
    | takeNext b => exact absurd rfl (hnext b)
    | _ => cases ha
  cases pc with
  | before a ss => exact hnode a rfl h.1 (fun _ => by simp) (h.2 a rfl)
  | timeDel a => exact hnode a rfl rfl (fun _ => by simp) (h.2 a rfl)
  | wait a => exact hnode a rfl rfl (fun _ => by simp) (h.2 a rfl)
  | after a ss => exact hnode a rfl h.1 (fun _ => by simp) (h.2 a rfl)
  | takeNext a =>
    obtain ⟨t, ht, hch⟩ := h.2 a rfl
    have hnxt := (overStep_local who sig (.takeNext a) ans m a rfl rfl).nxt
    refine (overStep_goes who sig (.takeNext a) ans m a rfl).imp ?_
    rintro g ⟨pc', rfl, c, hc, rfl⟩
    obtain ⟨_, p, hp, hl⟩ := hch
    have hcp : c.next = p := Option.some.inj ((Mem.nxt_of_node hc).symm.trans hp)
    refine ⟨_, rfl, t, (List.suffix_cons a t).trans ht, ?_, ?_⟩
    · exact (List.nodup_cons.mp (chain_nodup (show Chain m.nxt (some a) (a :: t) from ⟨rfl, p, hp, hl⟩))).1
    · rw [hnxt, hcp]
      exact hl
  | log =>
    have hk := overStep_log (E := fun _ => True) (fun _ _ => trivial) who sig ans m 0
    simp only [overStep] at hk ⊢
    cases hl : m.logLog ans.lost with
    | none => trivial
    | some n =>
      rw [hl] at hk
      refine ⟨.start, rfl, ?_⟩
      have hlist : m.ListIs mods := h
      rw [OnList, Mem.ListIs, show n.nxt = m.nxt from hk.nxt, show n.cychead = m.cychead from hk.head]
      exact hlist
  | start =>
    simp only [overStep]
    split_ifs
    · trivial
    · exact onList_walk who sig rfl (List.suffix_refl mods) h
  | free a tem =>
    obtain ⟨t, ht, hat, hch⟩ := h
    simp only [overStep]
    cases he : Cleanup.exec a m .free with
    | none => trivial
    | some n =>
      refine onList_walk who sig rfl ht (chain_congr (fun b hb => ?_) hch)
      have hba : b ≠ a := fun hba => hat (hba ▸ hb)
      simp only [Cleanup.exec] at he
      cases hc : m.node a with
      | none => simp [hc] at he
      | some c =>
        simp only [hc, Option.some.injEq] at he
        subst he
        rw [Mem.nxt_eq, Mem.nxt_eq]
        exact congrArg (Option.map Cycdata.next) (Heap.cell_free_ne _ hba)
  | shead =>
    simp only [overStep]
    split_ifs
    all_goals exact ⟨_, rfl, rfl, fun _ ha => by cases ha⟩
  | logDel =>
    simp only [overStep]
    cases logDel m.mainld m with
    | none => trivial
    | some n => exact ⟨_, rfl, rfl, fun _ ha => by cases ha⟩
  | exit => trivial
  | _ => exact ⟨_, rfl, rfl, fun _ ha => by cases ha⟩

end Walk

theorem releasing_node {who : Nat} {sig : Bool} {pc : OverPc} {a : Addr}
    (h : (Frame.gameover who sig pc).releasing = some a) : pc.node = some a := by
  cases pc with
  | timeDel b => exact h
  | after b ss =>
    cases ss with
    | nil => cases h
    | cons s ss => cases s <;> first | exact h | cases h
  | _ => cases h

theorem handlesOk_line {m n : Mem} {lost : Bool} {mods : List Addr} (hl : m.ListIs mods) (hh : HandlesOk m mods)
    (hline : m.logLog lost = some n) : n.ListIs mods ∧ HandlesOk n mods := by
  obtain rfl | ⟨_, x, hx, rfl⟩ := logLog_cases hline
  · exact ⟨hl, hh⟩
  · refine ⟨hl, fun a ha c hc => ⟨fun l hc' hne => ?_, (hh.ok a ha c hc).lib⟩, hh.log, hh.lib⟩
    have hlx : l ≠ x := fun he => hne (hc'.trans (he ▸ hx.symm))
    have hcell := (hh.ok a ha c hc).log l hc' hne
    rw [← m.logs.cell_free_ne hlx] at hcell
    exact hcell

/-- gameover comes to release the modules on the list and no others, unless its first line is written
to a log that was lost before. -/
theorem gameover_comes (dirch : List Byte) (env : Frame → Ans) (who : Nat) (sig : Bool) {m : Mem} {mods : List Addr}
    (hl : m.ListIs mods) (hh : HandlesOk m mods) (a : Addr) :
    (∃ f n, Goes (overBody dirch env) (.gameover who sig .log, m) (f, n) ∧ f.releasing = some a) ↔
      a ∈ mods ∧ (m.logLog (env (.gameover who sig .log)).lost).isSome := by
  constructor
  · rintro ⟨f, n, hg, ha⟩
    have hstart : OnList mods m .log := hl
    have hkeep : ∃ pc, f = .gameover who sig pc ∧ OnList mods n pc := by
      refine hg.keep (I := fun s => ∃ pc, s.1 = .gameover who sig pc ∧ OnList mods s.2 pc) ⟨.log, rfl, hstart⟩ ?_
      rintro ⟨g, p⟩ t ⟨pc, hg, hp⟩ ht
      have hg : g = .gameover who sig pc := hg
      subst hg
      have hs := hp.step who sig (env (.gameover who sig pc))
      simp only [Machine.soloBody, daemon] at ht
      cases hk : overStep who sig pc (env (.gameover who sig pc)) p with
      | mk k q =>
        rw [hk] at ht hs
        cases k with
        | goto x =>
          cases ht
          exact hs
        | _ => cases ht
    obtain ⟨pc, rfl, hon⟩ := hkeep
    have hnode := releasing_node ha
    refine ⟨?_, ?_⟩
    · have hat : ∃ t, a :: t <:+ mods ∧ Chain n.nxt (some a) (a :: t) := by
        cases pc with
        | before b ss => exact hon.2 a hnode
        | timeDel b => exact hon.2 a hnode
        | wait b => exact hon.2 a hnode
        | after b ss => exact hon.2 a hnode
        | takeNext b => exact hon.2 a hnode
        | _ => cases hnode
      obtain ⟨t, ht, _⟩ := hat
      exact ht.subset List.mem_cons_self
    · -- otherwise the first statement dies
      cases hline : m.logLog (env (.gameover who sig .log)).lost with
      | some q => rfl
      | none =>
        cases hg.cases_head with
        | inl he =>
          cases he
          cases hnode
        | inr hs =>
          obtain ⟨s, hs, _⟩ := hs
          simp [Machine.soloBody, daemon, overStep, hline, crash] at hs
  · rintro ⟨ha, hline⟩
    obtain ⟨q, hq⟩ := Option.isSome_iff_exists.mp hline
    obtain ⟨hlq, hhq⟩ := handlesOk_line hl hh hq
    have hc : q.cychead ≠ none := by
      intro hc
      rw [Mem.ListIs, hc] at hlq
      rw [chain_none hlq] at ha
      cases ha
    obtain ⟨n, ht⟩ := torn_of_list hlq hhq
    obtain ⟨p, hp⟩ := walk_comes dirch env who sig ht ha q.trace
    exact ⟨_, p, ((logLog_goes dirch env who sig hq).trans (start_goes dirch env who sig hc)).trans hp, rfl⟩

/-- gameover releases a module in the middle of one of its calls only when the SIGUSR1 that it handles
came during that very call: the stack below it is the one that the signal found. Until main gives up
the stop signal is taken wherever it comes, and brings gameover, not interrupted again, to release the
modules on the list and no others, those in a call with the rest, unless a line has lost the main log. -/
theorem release_in_call (dirch : List Byte) (confwhere libwhere : Bool) :
    (∀ c, (loggedDaemon dirch libwhere).Reach (fun _ _ => True) (loggedStart confwhere) c →
      ∀ f fs a g, c.stack = .code f :: fs → f.releasing = some a → .code g ∈ fs → g.inCall = some a →
        ∃ d e who pc, (loggedDaemon dirch libwhere).Reach (fun _ _ => True) (loggedStart confwhere) d ∧ d.stack = fs ∧
          (loggedDaemon dirch libwhere).next d (.signal .usr1) = some e ∧
          e.stack = .code (.gameover who true .log) :: fs ∧ f = .gameover who true pc ∧
          (loggedDaemon dirch libwhere).Reach (fun _ _ => True) e c) ∧
    ∀ d, (loggedDaemon dirch libwhere).Reach NoStop (loggedStart confwhere) d →
      ∀ pc mods, .code (.main pc) ∈ d.stack → pc.over = false → d.mem.ListIs mods →
        ∃ m, (loggedDaemon dirch libwhere).next d (.signal .usr1) =
            some ⟨.code (.gameover (d.mem.signals + 1) true .log) :: d.stack, m⟩ ∧
          ∀ env a, (∃ f n, Goes ((loggedDaemon dirch libwhere).soloBody env)
              (.code (.gameover (d.mem.signals + 1) true .log), m) (.code f, n) ∧ f.releasing = some a) ↔
            a ∈ mods ∧ ¬ d.mem.LostLog := by
  constructor
  · intro c hr f fs a g hc ha hg hcall
    have hcode : c.code.stack = f :: fs.filterMap Layer.code? := by rw [Config.code, hc]; rfl
    have hpair : c.code.stack.Pairwise Frame.calm := by
      refine hr.code_keep (I := fun c => c.stack.Pairwise Frame.calm) ?_ ?_
        (fun d l d' hI _ hn => (calm_sits dirch).next hI trivial hn) (fun _ _ _ _ _ hI _ => hI) fun _ _ _ => .nil
      · cases confwhere
        · trivial
        · exact ⟨⟨_, _, rfl, trivial⟩, trivial⟩
      · cases confwhere <;> exact List.pairwise_singleton _ _
    rw [hcode] at hpair
    have hcalm := (List.pairwise_cons.mp hpair).1 g (List.mem_filterMap.mpr ⟨_, hg, rfl⟩)
    -- the gameover of END has no call below it
    obtain ⟨who, pc, rfl⟩ : ∃ who pc, f = .gameover who true pc := by
      cases f with
      | main pc => cases ha
      | tick who pc => cases ha
      | gameover who sig pc =>
        cases sig with
        | true => exact ⟨who, pc, rfl⟩
        | false =>
          rw [hcalm.2 who pc rfl] at hcall
          cases hcall
    obtain ⟨d, s, e, x, hd, hfs, _, he, hx, ⟨y, hxy, pc', hy⟩, hec⟩ := hr.entered
      (Machine.withAsides_stays (P := fun f => ∃ pc, f = .gameover who true pc)
        (by rintro _ ans m ⟨pc, rfl⟩; exact overStep_stays who true pc ans m)
        (by rintro _ ans m g ⟨pc, rfl⟩; rfl))
      (Machine.withAsides_new (handler_new dirch who))
      (by cases confwhere <;> simp [loggedStart]) (k := []) hc ⟨_, rfl, pc, rfl⟩
    subst hxy
    subst hy
    have hsig : s = .usr1 ∧ pc' = .log := by
      simp only [Machine.next] at he
      split_ifs at he
      cases he
      cases s with
      | alarm => cases hx
      | usr1 =>
        obtain ⟨hx, _⟩ := List.cons.inj hx
        cases hx
        exact ⟨rfl, rfl⟩
    obtain ⟨rfl, rfl⟩ := hsig
    exact ⟨d, e, who, pc, hd, hfs, he, hx, rfl, hec⟩
  · intro d hr pc mods hpc hover hl
    have hrun := accounted_run hr
    obtain ⟨s, _⟩ := hrun.main pc (mem_code hpc) hover
    let n : Mem := { d.mem with signals := d.mem.signals + 1 }
    have hlist : n.ListIs mods := hl
    have hstock : Stock n pc.hands := s.signals _
    have hmain : MainLog n := (hrun.log pc (mem_code hpc) hover).keep (.same rfl rfl rfl)
    have hlost : ¬ n.LostLog ↔ ¬ d.mem.LostLog := Iff.rfl
    refine ⟨n, stop_taken hrun hpc hover, fun env a => ?_⟩
    rw [← hlost, ← hmain.line_iff (env (.code (.gameover (d.mem.signals + 1) true .log))).lost,
      ← gameover_comes dirch (fun f => env (.code f)) (d.mem.signals + 1) true hlist (hstock.handlesOk hlist) a]
    refine exists_congr fun f => exists_congr fun p => and_congr_left fun _ => ?_
    refine Machine.goes_code (P := fun f => ∃ q, f = .gameover (d.mem.signals + 1) true q) ?_ ?_ ⟨_, rfl⟩
    · rintro _ ans m ⟨q, rfl⟩
      exact overStep_stays _ true q ans m
    · rintro _ ans m g ⟨q, rfl⟩
      rfl

def Layer.called : Layer Frame Nat → Option Addr
  | .code (.main (.wait a _ _)) => some a
  | _ => none

theorem mem_called {fs : List (Layer Frame Nat)} {a : Addr} (h : some a ∈ fs.map Layer.called) :
    ∃ k ks, .code (.main (.wait a k ks)) ∈ fs := by
  obtain ⟨x, hx, hc⟩ := List.mem_map.mp h
  cases x with
  | aside ls => cases hc
  | code f =>
    cases f with
    | main pc =>
      cases pc with
      | wait b k ks =>
        cases hc
        exact ⟨k, ks, hx⟩
      | _ => cases hc
    | _ => cases hc

/-- main up to the init of the only module. -/
def calling : List (Label Ans Signal) := waiting.take 42

/-- The stop signal in the init of the module: gameover comes to release it, and when it does so the
signal has come in the init. -/
theorem release_in_call_init :
    (∃ (c : Config (Layer Frame Nat) Mem) (m : Mem), (loggedDaemon [] false).Reach NoStop (loggedStart true) c ∧
      c.stack.map Layer.called = [some 0] ∧
      ∃ f n, Goes ((loggedDaemon [] false).soloBody fun _ => world fun _ => some 0)
        (.code (.gameover (c.mem.signals + 1) true .log), m) (.code f, n) ∧ f.releasing = some 0) ∧
    ∃ (c d e : Config (Layer Frame Nat) Mem) (f : Frame) (fs : List (Layer Frame Nat)),
      (loggedDaemon [] false).Reach (fun _ _ => True) (loggedStart true) c ∧ c.stack = .code f :: fs ∧
        f.releasing = some 0 ∧ fs.map Layer.called = [some 0] ∧ d.stack = fs ∧
        (loggedDaemon [] false).next d (.signal .usr1) = some e := by
  constructor
  · have hx : ((loggedDaemon [] false).exec calling (loggedStart true)).map (fun c =>
        (c.stack.map Layer.called, c.mem.cychead, c.mem.nxt 0, c.mem.mainld, decide (.logDel 0 ∈ c.mem.trace))) =
          some ([some 0], some 0, some none, some 0, false) := by
      rfl
    obtain ⟨c, hc, hs⟩ := Option.map_eq_some_iff.mp hx
    simp only [Prod.mk.injEq] at hs
    obtain ⟨hst, hhead, hnxt, hmain, hlost⟩ := hs
    have hr : (loggedDaemon [] false).Reach NoStop (loggedStart true) c :=
      Machine.reach_of_exec _ (fun l hl d => noStop_waiting l (List.mem_of_mem_take hl) d) .refl hc
    obtain ⟨k, ks, hwait⟩ := mem_called (show some 0 ∈ c.stack.map Layer.called by rw [hst]; simp)
    have hlist : c.mem.ListIs [0] := ⟨hhead, none, hnxt, rfl⟩
    obtain ⟨m, _, hcomes⟩ := (release_in_call [] true false).2 c hr _ [0] hwait rfl hlist
    refine ⟨c, m, hr, hst, (hcomes _ 0).mpr ⟨by simp, ?_⟩⟩
    rintro ⟨x, hx, ht⟩
    rw [Option.some.inj (hx.symm.trans hmain)] at ht
    exact of_decide_eq_false hlost ht
  · have hx : ((loggedDaemon [] false).exec (calling ++ .signal .usr1 :: List.replicate 6 (.run (world fun _ => some 0)))
        (loggedStart true)).map (fun c => c.stack.map fun x => (x.code?.bind Frame.releasing, Layer.called x)) =
          some [(some 0, none), (none, some 0)] := by
      rfl
    obtain ⟨c, hc, hs⟩ := Option.map_eq_some_iff.mp hx
    obtain ⟨x, fs, hst, hx, hfs⟩ := List.map_eq_cons_iff.mp hs
    obtain ⟨f, hf, ha⟩ := Option.bind_eq_some_iff.mp (congrArg Prod.fst hx)
    have hxf : x = .code f := by
      cases x with
      | aside ls => cases hf
      | code g => exact congrArg Layer.code (Option.some.inj hf)
    subst hxf
    have hcalled : fs.map Layer.called = [some 0] := by
      have hm := congrArg (List.map Prod.snd) hfs
      rw [List.map_map] at hm
      exact hm
    obtain ⟨k, ks, hwait⟩ := mem_called (show some 0 ∈ fs.map Layer.called by rw [hcalled]; simp)
    have hr : (loggedDaemon [] false).Reach (fun _ _ => True) (loggedStart true) c :=
      Machine.reach_of_exec _ (fun _ _ _ => trivial) .refl hc
    obtain ⟨d, e, _, _, _, hd, he, _⟩ := (release_in_call [] true false).1 c hr f fs 0 _ hst ha hwait rfl
    exact ⟨c, d, e, f, fs, hr, hst, ha, hcalled, hd, he⟩

end TimeTask
