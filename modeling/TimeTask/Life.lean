import TimeTask.Holdings
import TimeTask.Lib.Service
import TimeTask.Nesting
import TimeTask.Stop
import TimeTask.TimeInit

/-! The life of the daemon: the start, TimeInit, any number of ticks and the stop signal. -/
namespace TimeTask
open Lib

def MainPc.early : MainPc → Bool
  | .initAt _ => false
  | .method _ _ => false
  | .wait _ _ _ => false
  | .pause => false
  | .END => false
  | .done => false
  | _ => true

/-- Up to TimeInit no module is called. -/
theorem mainStep_early (dirch : List Byte) (ans : Ans) (m : Mem) (pc : MainPc) (hpc : pc.early = true) :
    Silent m (mainStep dirch pc ans m).2 := by
  cases pc with
  | loadFile =>
    simp only [mainStep]
    cases ans.conf <;> exact .of_eq rfl rfl
  | readFile =>
    simp only [mainStep]
    cases ans.files <;> exact .of_eq rfl rfl
  | opendir =>
    simp only [mainStep]
    split_ifs
    · exact .one m rfl
    · exact .refl m
  | readdir k =>
    simp only [mainStep]
    cases ans.entry with
    | none => exact .one m rfl
    | some e =>
      simp only
      split_ifs <;> exact .refl m
  | dlopen e k =>
    simp only [mainStep]
    cases e.lib <;> exact .of_eq rfl rfl
  | dlsym i ok k =>
    simp only [mainStep]
    split_ifs
    · cases hd : dlclose i.dirhandletem m with
      | none => exact .refl m
      | some n => exact (silent_dlclose hd).1
    · exact .refl m
  | malloc i ok k =>
    cases ok <;> exact .of_eq rfl rfl
  | linkHead tem i k =>
    simp only [mainStep]
    cases hl : linkHead tem m with
    | none => exact .refl m
    | some n =>
      simp only [linkHead] at hl
      repeat' split at hl
      all_goals first | cases hl; exact .of_eq rfl rfl | cases hl
  | fill tem i fs k => cases fs <;> exact .of_eq rfl rfl
  | toSet =>
    simp only [mainStep]
    split_ifs <;> exact .refl m
  | bind chead fs =>
    cases fs with
    | nil => exact .refl m
    | cons f fs =>
      simp only [mainStep]
      repeat' split
      all_goals exact .refl m
  | sweep cyctem =>
    cases cyctem with
    | none => exact .refl m
    | some a =>
      simp only [mainStep]
      repeat' split
      all_goals exact .refl m
  | unlink a cycnext =>
    simp only [mainStep]
    split
    · exact .refl m
    · exact .refl m
    · next BB _ =>
      cases hu : unlinkCycdata a BB m with
      | none => exact .refl m
      | some n =>
        have hn : n.signals = m.signals ∧ n.trace = m.trace := by
          simp only [unlinkCycdata] at hu
          repeat' split at hu
          · cases hu
          · obtain ⟨c, _, hc⟩ := Option.map_eq_some_iff.mp hu
            subst hc
            exact ⟨rfl, rfl⟩
          · cases hu
            exact ⟨rfl, rfl⟩
          · cases hu
        exact .of_eq hn.1 hn.2
  | cleanup a ss cycnext =>
    cases ss with
    | nil => exact .refl m
    | cons s ss =>
      simp only [mainStep]
      cases he : s.exec a m with
      | none => exact .refl m
      | some n => exact (silent_exec he).1
  | linkTail tem i k => exact .of_eq rfl rfl
  | setFdate a f chead fs => exact .of_eq rfl rfl
  | setLd a chead fs => exact .of_eq rfl rfl
  | timeInit => exact .refl m
  | _ => cases hpc

theorem mainStep_late (dirch : List Byte) (ans : Ans) (m : Mem) (pc : MainPc) (hpc : pc.early = false) :
    ∀ g, (mainStep dirch pc ans m).1 = .goto g → ∃ pc', g = .main pc' ∧ pc'.early = false := by
  intro g hg
  cases pc with
  | initAt p => cases p <;> cases hg <;> exact ⟨_, rfl, rfl⟩
  | method a ks =>
    cases ks <;> simp only [mainStep] at hg <;> repeat' split at hg
    all_goals cases hg <;> exact ⟨_, rfl, rfl⟩
  | wait a k ks =>
    simp only [mainStep] at hg
    split_ifs at hg <;> cases hg <;> exact ⟨_, rfl, rfl⟩
  | pause =>
    cases hg
    exact ⟨_, rfl, rfl⟩
  | END => cases hg
  | done => cases hg
  | _ => cases hpc

/-- What main comes to TimeInit with. -/
theorem boot_state {dirch : List Byte} {conf : Option (List Byte)} {files : Option (List (Addr × Filedate))}
    (hfresh : ∀ fs, files = some fs → (freeFiledate fs).Nodup) {w v : Option (List Entry)} {m : Mem}
    (h : Goes (bootBody dirch conf files) (.main .loadFile, Mem.init, w) (.main .timeInit, m, v)) :
    Accounted m .timeInit ∧ Silent Mem.init m := by
  have hkeep : ∃ pc, Frame.main .timeInit = .main pc ∧ Accounted m pc ∧ (pc.early = true → Silent Mem.init m) := by
    refine h.keep (I := fun s => ∃ pc, s.1 = .main pc ∧ Accounted s.2.1 pc ∧ (pc.early = true → Silent Mem.init s.2.1))
      ⟨.loadFile, rfl, accounted_start, fun _ => .refl _⟩ ?_
    rintro ⟨f, n, u⟩ t ⟨pc, hf, hn, hs⟩ ht
    have hf : f = .main pc := hf
    subst hf
    have hans : Fresh (outside conf files (.main pc) u).1 := by
      intro fs hfs
      refine hfresh fs ?_
      simp only [outside] at hfs
      split at hfs <;> exact hfs
    have hacc := mainStep_accounted dirch (outside conf files (.main pc) u).1 pc hans hn
    have hearly := mainStep_early dirch (outside conf files (.main pc) u).1 n pc
    have hlate := mainStep_late dirch (outside conf files (.main pc) u).1 n pc
    have hstay := mainStep_stays dirch pc (outside conf files (.main pc) u).1 n
    simp only [Machine.worldBody, daemon] at ht
    cases hk : mainStep dirch pc (outside conf files (.main pc) u).1 n with
    | mk k q =>
      rw [hk] at ht hacc hearly hlate hstay
      cases k with
      | goto g =>
        cases ht
        by_cases hpc : pc.early = true
        · have hne : pc ≠ .END := fun he => by rw [he] at hpc; cases hpc
          obtain ⟨pc', hg, _⟩ := hstay hne
          subst hg
          exact ⟨pc', rfl, hacc _ (List.mem_singleton_self _), fun _ => (hs hpc).trans (hearly hpc)⟩
        · obtain ⟨pc', hg, hl⟩ := hlate (by simpa using hpc) g rfl
          subst hg
          exact ⟨pc', rfl, hacc _ (List.mem_singleton_self _), fun he => by rw [hl] at he; cases he⟩
      | _ => cases ht
  obtain ⟨pc, hpc, hacc, hs⟩ := hkeep
  cases hpc
  exact ⟨hacc, hs rfl⟩

section Run
variable {dirch : List Byte} {r : Nat → Addr → Method → Ans}

/-- From TimeInit on main does what a module method can do. -/
theorem inits_works {m : Mem} {f : Frame} {q : Mem} (h : Goes (moduleBody dirch r) (.main .timeInit, m) (f, q)) :
    Works m q := by
  have hkeep : Works m q ∧ ∃ pc, f = .main pc ∧ (pc.settled = true ∨ pc = .END) := by
    refine h.keep (I := fun s => Works m s.2 ∧ ∃ pc, s.1 = .main pc ∧ (pc.settled = true ∨ pc = .END))
      ⟨.refl, .timeInit, rfl, Or.inl rfl⟩ ?_
    rintro ⟨g, n⟩ t ⟨hw, pc, hg, hpc⟩ ht
    have hg : g = .main pc := hg
    subst hg
    simp only [Machine.soloBody, daemon] at ht
    cases pc with
    | timeInit =>
      cases ht
      exact ⟨hw, _, rfl, Or.inl rfl⟩
    | initAt p =>
      cases p with
      | none =>
        cases ht
        exact ⟨hw, _, rfl, Or.inl rfl⟩
      | some a =>
        cases ht
        exact ⟨hw, _, rfl, Or.inl rfl⟩
    | method a ks =>
      cases ks with
      | nil =>
        simp only [mainStep] at ht
        cases hn : n.nxt a with
        | none =>
          rw [hn] at ht
          cases ht
        | some p =>
          rw [hn] at ht
          cases ht
          exact ⟨hw, _, rfl, Or.inl rfl⟩
      | cons k ks =>
        simp only [mainStep] at ht
        cases hn : n.node a with
        | none =>
          rw [hn] at ht
          cases ht
        | some c =>
          simp only [hn] at ht
          split_ifs at ht
          · cases ht
            exact ⟨hw, _, rfl, Or.inl rfl⟩
          · cases ht
            exact ⟨hw.tail (.emit n _), _, rfl, Or.inl rfl⟩
    | wait a k ks =>
      have hret : Works m (n.methodRet 0 a k (replies r (.main (.wait a k ks)))) :=
        hw.trans (works_methodRet 0 a k _ n)
      simp only [mainStep] at ht
      split_ifs at ht
      · cases ht
        exact ⟨hret, _, rfl, Or.inr rfl⟩
      · cases ht
        exact ⟨hret, _, rfl, Or.inl rfl⟩
    | pause =>
      cases ht
      exact ⟨hw, _, rfl, Or.inl rfl⟩
    | END => cases ht
    | _ => cases hpc with
      | inl hs => cases hs
      | inr he => cases he
  exact hkeep.1

theorem tick_works {env : Frame → Ans} {who : Nat} {pc : TickPc} {m n : Mem} {b : Bool}
    (h : Leaves ((daemon dirch).soloBody env) (.tick who pc, m) (b, n)) : Works m n := by
  obtain ⟨⟨f, q⟩, hgo, hlast⟩ := h.last
  have hstep : ∀ (pc : TickPc) (q : Mem), Works m q → Works m (tickStep who pc (env (.tick who pc)) q).2 :=
    fun pc q hq => hq.trans (tickStep_works who pc _ q)
  have hkeep : Works m q ∧ ∃ pc, f = .tick who pc := by
    refine hgo.keep (I := fun s => Works m s.2 ∧ ∃ pc, s.1 = .tick who pc) ⟨.refl, pc, rfl⟩ ?_
    rintro ⟨g, p⟩ t ⟨hw, pc, hg⟩ ht
    have hg : g = .tick who pc := hg
    subst hg
    have hstay := tickStep_stays who pc (env (.tick who pc)) p
    have hp := hstep pc p hw
    simp only [Machine.soloBody, daemon] at ht
    cases hk : tickStep who pc (env (.tick who pc)) p with
    | mk k x =>
      rw [hk] at ht hstay hp
      cases k with
      | goto y =>
        cases ht
        exact ⟨hp, hstay⟩
      | _ => cases ht
  obtain ⟨hq, pc', hf⟩ := hkeep
  subst hf
  have hp := hstep pc' q hq
  simp only [Machine.soloBody, daemon] at hlast
  cases hk : tickStep who pc' (env (.tick who pc')) q with
  | mk k x =>
    rw [hk] at hlast hp
    cases k <;> cases hlast <;> exact hp

end Run

/-- A module as an automaton: first TimeInit, then the ticks. -/
def moduleLife (r : Nat → Addr → Method → Ans) (a : Addr) : Nat → Option Cycdata → List Event × Option Cycdata
  | 0 => moduleInit r a
  | i + 1 => moduleTick r a (i + 1)

/-- The daemon waits. Since `m₀` the modules have had TimeInit and a tick for every signal. -/
structure Resting (r : Nat → Addr → Method → Ans) (m₀ : Mem) (mods : List Addr) (m : Mem) : Prop where
  accounted : Accounted m .pause
  list : m.ListIs mods
  view : ∀ a ∈ mods, m.view a = after (moduleLife r a) (m₀.view a) (m.signals + 1)
  trace : m.methodTrace = rounds (moduleLife r) m₀.view mods (m.signals + 1)

/-- gameover number `who` has come from the memory `d` to exit. -/
structure Stopped (r : Nat → Addr → Method → Ans) (who : Nat) (mods : List Addr) (d c : Mem) : Prop where
  trace : c.methodTrace = d.methodTrace ++ mods.flatMap fun a => moduleStop r who a (d.node a)
  released : ∃ es, c.trace = d.trace ++ es ∧ ReleasedAll d es

section Life
variable {dirch : List Byte} {r : Nat → Addr → Method → Ans} {m₀ : Mem} {mods : List Addr}

theorem stop_leaves (dirch : List Byte) (r : Nat → Addr → Method → Ans) (who : Nat) (sig : Bool) {d : Mem}
    (s : Stock d .free) (hne : d.cychead ≠ none) (ho : d.LogOpen) (hl : d.ListIs mods) :
    ∃ c, Leaves (overBody dirch (replies r)) (.gameover who sig .log, d) (false, c) ∧ Stopped r who mods d c := by
  obtain ⟨y, hy, _, hopen⟩ := ho
  obtain ⟨c, es, hleave, htr, hrel⟩ := s.releases dirch (replies r) who sig hne hy hopen rfl
  obtain ⟨x, pre, _, hes, _⟩ := hrel.mainld
  have hend : c.trace = d.trace ++ (pre ++ [.logDel x]) ++ [.exit] := by
    rw [htr, hes, List.append_assoc, List.append_assoc]
    rfl
  exact ⟨c, hleave, stop_shows dirch r who sig hl hend hleave, es, htr, hrel⟩

theorem served_run (g : Frame) (fs : List Frame) (n : Mem) :
    Machine.Served (S := Signal) (replies r) (.main .pause) ⟨g :: fs, n⟩ (.run (replies r g)) := by
  intro f hf
  cases hf
  rfl

theorem Resting.tick {m n : Mem} (h : Resting r m₀ mods m)
    (hl : Leaves (moduleBody dirch r) ((daemon dirch).enter .alarm m) (true, n))
    (ht : Turned (fun b => moduleTick r b (m.signals + 1)) { m with signals := m.signals + 1 } mods n) :
    Resting r m₀ mods n := by
  have hsig : n.signals = m.signals + 1 := ht.signals
  have hview : ∀ b ∈ mods, moduleTick r b (m.signals + 1) (m.view b) =
      moduleLife r b (m.signals + 1) (after (moduleLife r b) (m₀.view b) (m.signals + 1)) := by
    intro b hb
    rw [h.view b hb]
    rfl
  refine ⟨?_, ?_, fun a ha => ?_, ?_⟩
  · exact (h.accounted.work (.signals m (m.signals + 1))).works (tick_works hl)
  · rw [Mem.ListIs, ht.nxt fun b => moduleTick_next r b _, ht.head]
    exact h.list
  · rw [hsig, after, ← hview a ha, ht.view a, if_pos ha]
    rfl
  · have hshown : (mods.flatMap fun b => (moduleTick r b (m.signals + 1) (m.view b)).1) =
        mods.flatMap fun b => shown (moduleLife r b) (m₀.view b) (m.signals + 1) :=
      List.flatMap_congr fun b hb => by rw [hview b hb, shown]
    rw [hsig, rounds_succ, ← hshown, ← h.trace]
    exact ht.trace

/-- The runs from TimeInit on in which the methods answer `r` and signals come while main waits. -/
abbrev Serving (dirch : List Byte) (r : Nat → Addr → Method → Ans) (m₀ : Mem) (c : Config Frame Mem) : Prop :=
  (daemon dirch).Reach (Machine.Served (replies r) (.main .pause)) ⟨[.main .timeInit], m₀⟩ c

theorem served_keepsFile (c : Config Frame Mem) (l : Label Ans Signal)
    (h : Machine.Served (replies r) (.main .pause) c l) : KeepsFile c l := by
  cases l with
  | run ans =>
    intro who sig ht
    rw [h _ ht]
    rfl
  | signal s =>
    intro f hf
    rw [show c.stack = _ from h] at hf
    cases hf
    rfl

theorem logAlive_timeInit (h0 : m₀.LogOpen) : LogAlive ⟨[.main .timeInit], m₀⟩ := fun _ _ => Or.inr h0

theorem Serving.logOpen {f : Frame} {fs : List Frame} {m : Mem} (h0 : m₀.LogOpen) (hf : f.closed = false)
    (hr : Serving dirch r m₀ ⟨f :: fs, m⟩) : m.LogOpen :=
  ((logAlive_timeInit h0).reach served_keepsFile hr f rfl).resolve_left fun ht => Bool.noConfusion (ht.symm.trans hf)

theorem Resting.alarm {m : Mem} (h : Resting r m₀ mods m) (hr : Serving dirch r m₀ ⟨[.main .pause], m⟩) :
    ∃ n, Leaves (moduleBody dirch r) ((daemon dirch).enter .alarm m) (true, n) ∧ n.signals = m.signals + 1 ∧
      Serving dirch r m₀ ⟨[.main .pause], n⟩ ∧ Resting r m₀ mods n := by
  obtain ⟨n, hl, ht⟩ := round_leaves dirch r h.list
  refine ⟨n, hl, ht.signals, ?_, h.tick hl ht⟩
  have hsignal : Serving dirch r m₀ ⟨[((daemon dirch).enter .alarm m).1, .main .pause], _⟩ := hr.step (l := .signal .alarm) rfl rfl
  exact hsignal.returns (fun g q => served_run g _ q) hl

theorem handler_stays (dirch : List Byte) (f : Frame) (ans : Ans) (m : Mem) (hf : f.kind ≠ .main) :
    ((daemon dirch).step f ans m).1.Stays fun g => g.kind ≠ .main := by
  cases f with
  | main pc => exact absurd rfl hf
  | tick who pc =>
    refine (tickStep_stays who pc ans m).imp ?_
    rintro g ⟨pc', rfl⟩
    simp [Frame.kind]
  | gameover who sig pc =>
    refine (overStep_stays who sig pc ans m).imp ?_
    rintro g ⟨pc', rfl⟩
    cases sig <;> simp [Frame.kind]

theorem Resting.stop {m : Mem} (h : Resting r m₀ mods m) (h0 : m₀.LogOpen) (hr : Serving dirch r m₀ ⟨[.main .pause], m⟩) :
    ∃ c, Leaves (moduleBody dirch r) ((daemon dirch).enter .usr1 m) (false, c) ∧ Serving dirch r m₀ ⟨[], c⟩ ∧
      Stopped r (m.signals + 1) mods m c := by
  have hsig : Work m { m with signals := m.signals + 1 } := .signals m _
  have hacc := h.accounted.work hsig
  have hopen : Mem.LogOpen { m with signals := m.signals + 1 } := (Serving.logOpen h0 rfl hr).keep (.same rfl rfl rfl)
  obtain ⟨c, hl, ht, es, he, hrel⟩ :=
    stop_leaves dirch r (m.signals + 1) true (hacc rfl).1 (hacc.head rfl) hopen h.list
  refine ⟨c, hl, ?_, ht, es, he, hrel.nodes, hrel.logs, hrel.libs, hrel.shead, hrel.filehead, hrel.mainld⟩
  have hsignal : Serving dirch r m₀ ⟨[((daemon dirch).enter .usr1 m).1, .main .pause], _⟩ :=
    hr.step (l := .signal .usr1) rfl rfl
  exact hsignal.ends (fun g n => served_run g _ n) (by simp [daemon, Frame.kind]) (handler_stays dirch) hl

/-- The handlers, between one rest and the next. -/
theorem daemon_serves (dirch : List Byte) (r : Nat → Addr → Method → Ans) (m₀ : Mem) (mods : List Addr)
    (h0 : m₀.LogOpen) :
    (daemon dirch).Serves (replies r) (.main .pause) (fun f => f.kind ≠ .main)
      (fun m => Serving dirch r m₀ ⟨[.main .pause], m⟩ ∧ Resting r m₀ mods m)
      (fun c => ∃ d, Serving dirch r m₀ ⟨[.main .pause], d⟩ ∧ Resting r m₀ mods d ∧
        Stopped r (d.signals + 1) mods d c) := by
  refine ⟨fun m => rfl, fun s m => ?_, fun f ans m hf => ?_, fun s m hm => ?_⟩
  · cases s <;> simp [daemon, Frame.kind]
  · exact handler_stays dirch f ans m hf
  · obtain ⟨hr, hrest⟩ := hm
    cases s with
    | alarm =>
      obtain ⟨n, hl, _, hn, hres⟩ := hrest.alarm hr
      exact ⟨true, n, hl, hn, hres⟩
    | usr1 =>
      obtain ⟨c, hl, _, hs⟩ := hrest.stop h0 hr
      exact ⟨false, c, hl, m, hr, hrest, hs⟩

variable (dirch) in
theorem inits_rest (hacc : Accounted m₀ .timeInit) (hl : m₀.ListIs mods) (hs : Silent Mem.init m₀)
    (hok : mods.any (initFails r m₀) = false) :
    ∃ m₁, Goes (moduleBody dirch r) (.main .timeInit, m₀) (.main .pause, m₁) ∧ m₁.signals = 0 ∧
      Resting r m₀ mods m₁ := by
  obtain ⟨m₁, hg, ht, hlist⟩ := inits_turned dirch r hl
  rw [hok] at hg
  rw [upTo_all hok] at ht
  have hsig : m₁.signals = 0 := ht.signals.trans hs.signals
  have hw := hacc.works (inits_works hg)
  refine ⟨m₁, hg, hsig, accounted_intro (hw rfl).1 (hw rfl).2, hlist, fun a ha => ?_, ?_⟩
  · rw [hsig, ht.view a, if_pos ha]
    rfl
  · rw [hsig, rounds_succ, ht.trace, hs.methodTrace]
    rfl

variable (dirch) in
theorem inits_end (hacc : Accounted m₀ .timeInit) (h0 : m₀.LogOpen) (hl : m₀.ListIs mods) (hs : Silent Mem.init m₀)
    (hfail : mods.any (initFails r m₀) = true) :
    ∃ d c, Serving dirch r m₀ ⟨[.main .END], d⟩ ∧ Serving dirch r m₀ ⟨[], c⟩ ∧
      d.methodTrace = (upTo (initFails r m₀) mods).flatMap (fun a => (moduleInit r a (m₀.view a)).1) ∧
      Stopped r 0 mods d c := by
  obtain ⟨d, hg, ht, hlist⟩ := inits_turned dirch r hl
  rw [hfail] at hg
  have hw := hacc.works (inits_works hg)
  have hend : Serving dirch r m₀ ⟨[.main .END], d⟩ := Machine.Reach.refl.goes (fun g n => served_run g _ n) hg
  have hopen := Serving.logOpen h0 rfl hend
  obtain ⟨c, hleave, hstop⟩ := stop_leaves dirch r 0 false (hw rfl).1 (hw.head rfl) hopen hlist
  have hcall : Serving dirch r m₀ ⟨[.gameover 0 false .log, .main .done], d⟩ :=
    hend.step (served_run (.main .END) [] d) rfl
  refine ⟨d, c, hend, ?_, ?_, hstop⟩
  · exact hcall.ends (fun g n => served_run g _ n) (by simp [Frame.kind])
      (handler_stays dirch) hleave
  · rw [ht.trace, hs.methodTrace]
    rfl

end Life

/-- What the daemon does from TimeInit on, when the module list is ready. -/
theorem serving_life {dirch : List Byte} {r : Nat → Addr → Method → Ans} {m : Mem} {mods : List Addr}
    (hacc : Accounted m .timeInit) (h0 : m.LogOpen) (hlist : m.ListIs mods) (hsilent : Silent Mem.init m)
    (hok : mods.any (initFails r m) = false) :
    (∀ n, ∃ d, Serving dirch r m ⟨[.main .pause], d⟩ ∧ d.signals = n) ∧
      ∀ c, Serving dirch r m c →
        (c.stack = [.main .pause] →
          c.mem.methodTrace = rounds (moduleLife r) m.view mods (c.mem.signals + 1) ∧
          ∃ e, Serving dirch r m ⟨[], e⟩ ∧ Stopped r (c.mem.signals + 1) mods c.mem e) ∧
        (c.stack = [] → ∃ d, Serving dirch r m ⟨[.main .pause], d⟩ ∧ Stopped r (d.signals + 1) mods d c.mem) := by
  obtain ⟨m₁, hinit, hsig, hrest⟩ := inits_rest dirch hacc hlist hsilent hok
  have hfirst : Serving dirch r m ⟨[.main .pause], m₁⟩ := Machine.Reach.refl.goes (fun g n => served_run g _ n) hinit
  refine ⟨fun n => ?_, fun c hc => ?_⟩
  · have hall : ∃ d, Serving dirch r m ⟨[.main .pause], d⟩ ∧ d.signals = n ∧ Resting r m mods d := by
      induction n with
      | zero => exact ⟨m₁, hfirst, hsig, hrest⟩
      | succ n ih =>
        obtain ⟨d, hd, hn, hres⟩ := ih
        obtain ⟨e, _, hes, he, hre⟩ := hres.alarm hd
        exact ⟨e, he, hes.trans (congrArg (· + 1) hn), hre⟩
    obtain ⟨d, hd, hn, _⟩ := hall
    exact ⟨d, hd, hn⟩
  · have hcases := (daemon_serves dirch r m mods h0).reach hinit ⟨hfirst, hrest⟩ hc
    obtain ⟨f, he, hf, _⟩ | ⟨he, hr, hres⟩ | ⟨f, he, _⟩ | ⟨he, d, hd, _, hstop⟩ := hcases
    · exact ⟨fun h => absurd (List.singleton_inj.mp (he.symm.trans h)) hf, fun h => (by rw [he] at h; cases h)⟩
    · refine ⟨fun _ => ⟨hres.trace, ?_⟩, fun h => (by rw [he] at h; cases h)⟩
      obtain ⟨e, _, hl, hstop⟩ := hres.stop h0 hr
      exact ⟨e, hl, hstop⟩
    · exact ⟨fun h => (by rw [he] at h; cases h), fun h => (by rw [he] at h; cases h)⟩
    · exact ⟨fun h => (by rw [he] at h; cases h), fun _ => ⟨d, hd, hstop⟩⟩

/-- These runs with their log lines, none of which loses its file. -/
abbrev Lives (dirch : List Byte) (libwhere : Bool) (r : Nat → Addr → Method → Ans) (m₀ : Mem)
    (c : Config (Layer Frame Nat) Mem) : Prop :=
  (loggedDaemon dirch libwhere).Reach (Kept (Machine.Served (replies r) (.main .pause))) ⟨[.code (.main .timeInit)], m₀⟩ c

section Lives
variable {dirch : List Byte} {libwhere : Bool} {r : Nat → Addr → Method → Ans} {m₀ : Mem}

theorem Lives.code {c : Config (Layer Frame Nat) Mem} (h0 : m₀.LogOpen) (h : Lives dirch libwhere r m₀ c) :
    Serving dirch r m₀ c.code := by
  have hground : Machine.Grounded (L := Nat) (fun g => g.closed = false) [.code (Frame.main .timeInit)] := trivial
  exact kept_code served_keepsFile rfl hground (logAlive_timeInit h0) h

theorem Serving.lift {f : Frame} {m : Mem} (h0 : m₀.LogOpen) (h : Serving dirch r m₀ ⟨[f], m⟩) :
    Lives dirch libwhere r m₀ ⟨[.code f], m⟩ :=
  kept_lift served_keepsFile (logAlive_timeInit h0) .refl h

theorem Serving.lift_end {m : Mem} (h0 : m₀.LogOpen) (h : Serving dirch r m₀ ⟨[], m⟩) : Lives dirch libwhere r m₀ ⟨[], m⟩ :=
  kept_lift served_keepsFile (logAlive_timeInit h0) .refl h

end Lives

/-- The whole life of the daemon, when malloc grants its blocks, the paths fit their buffer, the
configuration is accepted, each of its sections has a loadable library of its name to itself, and no
log line loses its file. From the configuration and the libraries main comes to TimeInit with its
modules. If one of them fails there, main calls gameover and everything is released. If none does,
every timer signal is served; whenever the daemon waits its method calls are those of the modules,
each following its own automaton, taken in turn; and when it has ended, the stop signal found it
waiting, the deldate of each module was called and everything was released. -/
theorem daemon_life (dirch : List Byte) (confwhere libwhere : Bool) (malloc : Nat → Bool) (text : List Byte)
    (hg : Grants malloc (encode (recordsOf false text)).length) (brk : Addr) (conf : Option (List Byte))
    (files : Option (List (Addr × Filedate))) (hans : Answers malloc text brk conf files) (es : List Entry)
    (hfit : ∀ e ∈ es, e.candidate = true → (e.chbb dirch).length < 64) (confs : List Conf)
    (hm : meaning text = .read confs) (hst : Startable (confs.map Conf.name) es) :
    ∃ (m : Mem) (mods : List Addr),
      (loggedDaemon dirch libwhere).Reach (Kept Quiet) (loggedStart confwhere) ⟨[.code (.main .timeInit)], m⟩ ∧
      m.ListIs mods ∧ List.Forall₂ (fun a p => ServesConf dirch m a p.1 p.2) mods (assignment confs es) ∧
      ∀ r : Nat → Addr → Method → Ans,
        (mods.any (initFails r m) = false →
          (∀ n, ∃ d, Lives dirch libwhere r m ⟨[.code (.main .pause)], d⟩ ∧ d.signals = n) ∧
          ∀ c, Lives dirch libwhere r m c →
            (c.stack = [.code (.main .pause)] →
              c.mem.methodTrace = rounds (moduleLife r) m.view mods (c.mem.signals + 1) ∧
              ∃ e, Lives dirch libwhere r m ⟨[], e⟩ ∧ Stopped r (c.mem.signals + 1) mods c.mem e) ∧
            (c.stack = [] → ∃ d, Lives dirch libwhere r m ⟨[.code (.main .pause)], d⟩ ∧
              Stopped r (d.signals + 1) mods d c.mem)) ∧
        (mods.any (initFails r m) = true →
          ∃ d e, Lives dirch libwhere r m ⟨[.code (.main .END)], d⟩ ∧ Lives dirch libwhere r m ⟨[], e⟩ ∧
            d.methodTrace = (upTo (initFails r m) mods).flatMap (fun a => (moduleInit r a (m.view a)).1) ∧
            Stopped r 0 mods d e) := by
  obtain ⟨buf, fs, hconf, hfiles, hfs, hs⟩ := hans.read hg hm
  subst hconf
  subst hfiles
  obtain ⟨m, w, hgo, mods, hlist, hserve⟩ := launch_runs buf hs hfit hfs hst
  have hfresh : ∀ fs', some fs = some fs' → (freeFiledate fs').Nodup := by
    intro fs' hf
    obtain ⟨q, hq, hres⟩ := hans.parse buf rfl
    split_ifs at hres with hret
    exact readFile_fresh hq (hres.symm.trans hf)
  obtain ⟨hacc, hsilent⟩ := boot_state hfresh hgo
  have h0 : m.LogOpen := (logAlive_start.reach quiet_keepsFile (boot_quiet hgo) _ rfl).resolve_left (by simp [Frame.closed])
  refine ⟨m, mods, boot_logged confwhere libwhere hgo, hlist, hserve, fun r => ⟨fun hok => ?_, fun hfail => ?_⟩⟩
  · obtain ⟨hticks, hlife⟩ := serving_life hacc h0 hlist hsilent hok
    refine ⟨fun n => ?_, fun c hc => ?_⟩
    · obtain ⟨d, hd, hn⟩ := hticks n
      exact ⟨d, hd.lift h0, hn⟩
    · obtain ⟨hwait, hover⟩ := hlife c.code (hc.code h0)
      refine ⟨fun hst => ?_, fun hst => ?_⟩
      · obtain ⟨htrace, e, he, hstop⟩ := hwait (by rw [Config.code, hst]; rfl)
        exact ⟨htrace, e, he.lift_end h0, hstop⟩
      · obtain ⟨d, hd, hstop⟩ := hover (by rw [Config.code, hst]; rfl)
        exact ⟨d, hd.lift h0, hstop⟩
  · obtain ⟨d, e, hd, he, htrace, hstop⟩ := inits_end dirch hacc h0 hlist hsilent hfail
    exact ⟨d, e, hd.lift h0, he.lift_end h0, htrace, hstop⟩

def obliging : Nat → Addr → Method → Ans := fun _ _ _ => ⟨0, none, false, none, none, false, none, false⟩

/-- Two sections and their libraries, two ticks and the stop. -/
theorem daemon_life_noted : ∃ (m d e : Mem) (mods : List Addr), mods.length = 2 ∧ m.ListIs mods ∧
    Lives [46] true obliging m ⟨[.code (.main .pause)], d⟩ ∧ d.signals = 2 ∧
      d.methodTrace = rounds (moduleLife obliging) m.view mods 3 ∧
      Lives [46] true obliging m ⟨[], e⟩ ∧ Stopped obliging 3 mods d e := by
  obtain ⟨conf, files, hans⟩ := noted_answers
  obtain ⟨m, mods, _, hlist, hserve, hall⟩ := daemon_life [46] true true smallBlocks notedText noted_grants 0 conf files
    hans _ noted_fits notedConfs noted_meaning noted_startable
  have hok : mods.any (initFails obliging m) = false := by
    rw [List.any_eq_false]
    intro a _
    cases hv : m.view a <;> simp [initFails, fails, obliging, hv]
  obtain ⟨hticks, hlife⟩ := (hall obliging).1 hok
  obtain ⟨d, hd, hn⟩ := hticks 2
  obtain ⟨htrace, e, he, hs⟩ := (hlife _ hd).1 rfl
  rw [hn] at htrace hs
  exact ⟨m, d, e, mods, hserve.length_eq, hlist, hd, hn, htrace, he, hs⟩

end TimeTask
