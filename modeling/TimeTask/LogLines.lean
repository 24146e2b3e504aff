import TimeTask.Effects
import TimeTask.Lib.Asides
import TimeTask.LogBuffers

/-! The log lines of main and of the ticks: each of them can lose the main log, and the process
dies in the next one. -/
namespace TimeTask
open Lib

/-- The lines of loadLib about the symbols that dlsym does not find. -/
def dlsymLine : Method → Nat
  | .init => 775
  | .login => 783
  | .seach => 791
  | .howdo => 800
  | .send => 809
  | .deldate => 817

/-- The logLog calls of main.c, by their line, that main makes on its way from a statement to the
next one. `libwhere` tells whether the option -l is given. -/
def mainLines (libwhere : Bool) (pc : MainPc) (ans : Ans) (m : Mem) (pc' : MainPc) : List Nat :=
  match pc, pc' with
  | .loadFile, .END => [1004]
  | .readFile, .END => [1015]
  | .readFile, .opendir => 1018 :: if libwhere then [1023] else []
  | .opendir, .END => [721, 1035]
  | .readdir _, .END => [855, 1035]
  | .readdir _, .toSet => [859, 1038]
  | .readdir _, .readdir _ =>
    if ans.entry.any fun e => 7 ≤ e.dName.length && e.dName.length ≤ nameCharNumMax + 6 - 1 then [738] else [733]
  | .dlopen _ _, .END => [762, 1035]
  | .dlopen _ _, .dlsym i _ _ =>
    (Method.all.filter fun k => (i.syms k).isNone).map dlsymLine ++
      824 :: if Method.all.all fun k => (i.syms k).isNone then [827] else []
  | .dlsym _ _ _, .END => [1035]
  | .malloc _ _ _, .END => [835, 1035]
  | .toSet, .END => [651, 1045]
  | .bind chead fs, .END =>
    if fs.head?.any fun f => matchModule m f.2.name chead = some none then [679, 1045] else [668, 1045]
  | .sweep _, .unlink _ _ => [692]
  | .unlink _ _, .END => [698, 1045]
  | .sweep _, .timeInit => [1048, 1051]
  | .wait _ .init _, .END => [877, 1059]
  | .wait _ _ _, .END => [887, 1059]
  | .initAt _, .pause => [1065]
  | _, _ => []

/-- TimeDo writes a line about a method that fails. -/
def tickLines (pc pc' : TickPc) (ans : Ans) : List Nat :=
  match pc, pc' with
  | .wait _ .seach _, .next _ => if ans.ret < 0 then [46] else []
  | .wait _ .howdo _, .next _ => if ans.ret < 0 then [57] else []
  | .wait _ _ _, .next _ => if ans.ret < 0 then [68] else []
  | _, _ => []

def lines (libwhere : Bool) (f : Frame) (ans : Ans) (m : Mem) (g : Frame) : List Nat :=
  match f, g with
  | .main pc, .main pc' => mainLines libwhere pc ans m pc'
  | .tick _ pc, .tick _ pc' => tickLines pc pc' ans
  | _, _ => []

/-- The daemon with its log lines. The line in front of closedir is written behind it. -/
def loggedDaemon (dirch : List Byte) (libwhere : Bool) : Machine (Layer Frame Nat) Ans Signal Mem :=
  (daemon dirch).withAsides (lines libwhere) fun _ ans m => m.logLog ans.lost

/-- With the option -c the first thing that the daemon does is to write a line. -/
def loggedStart (confwhere : Bool) : Config (Layer Frame Nat) Mem :=
  ⟨(if confwhere then [.aside [993]] else []) ++ [.code (.main .loadFile)], Mem.init⟩

theorem mainLines_listed (libwhere : Bool) (pc : MainPc) (ans : Ans) (m : Mem) (pc' : MainPc) :
    ∀ n ∈ mainLines libwhere pc ans m pc', n ∈ mainSites.map Site.line := by
  intro n hn
  have hsub : ∀ l : List Nat, l ⊆ mainSites.map Site.line → n ∈ l → n ∈ mainSites.map Site.line := fun l hl h => hl h
  have hsym : ∀ k, dlsymLine k ∈ mainSites.map Site.line := by
    intro k
    cases k <;> decide
  unfold mainLines at hn
  split at hn
  all_goals try split_ifs at hn
  all_goals first
    | exact hsub _ (by decide) hn
    | skip
  all_goals
    cases List.mem_append.mp hn with
    | inl hk =>
      obtain ⟨k, _, hk⟩ := List.mem_map.mp hk
      exact hk ▸ hsym k
    | inr hk => exact hsub _ (by decide) hk

/-- The main log stays as it is. -/
structure KeepsLog (m n : Mem) : Prop where
  mainld : n.mainld = m.mainld
  brk : m.logs.brk ≤ n.logs.brk
  log : ∀ x < m.logs.brk, m.mainld = some x →
    (n.logs.cell x).isSome = (m.logs.cell x).isSome ∧ (.logDel x ∈ n.trace ↔ .logDel x ∈ m.trace)

section Keeps
variable {m n p : Mem}

theorem KeepsLog.refl (m : Mem) : KeepsLog m m := ⟨rfl, Nat.le_refl _, fun _ _ _ => ⟨rfl, Iff.rfl⟩⟩

theorem KeepsLog.trans (h : KeepsLog m n) (k : KeepsLog n p) : KeepsLog m p := by
  refine ⟨k.mainld.trans h.mainld, Nat.le_trans h.brk k.brk, fun x hx hm => ?_⟩
  obtain ⟨h1, h2⟩ := h.log x hx hm
  obtain ⟨k1, k2⟩ := k.log x (Nat.lt_of_lt_of_le hx h.brk) (h.mainld.trans hm)
  exact ⟨k1.trans h1, k2.trans h2⟩

theorem KeepsLog.of_eq (es : List Event) (hm : n.mainld = m.mainld) (hl : n.logs = m.logs)
    (ht : n.trace = m.trace ++ es) (hes : ∀ x, .logDel x ∉ es) : KeepsLog m n := by
  refine ⟨hm, by rw [hl], fun x _ _ => ⟨by rw [hl], ?_⟩⟩
  rw [ht, List.mem_append]
  exact or_iff_left (hes x)

theorem KeepsLog.emit (m : Mem) {es : List Event} (h : ∀ x, .logDel x ∉ es) : KeepsLog m (m.emit es) :=
  .of_eq es rfl rfl rfl h

theorem KeepsLog.same (hm : n.mainld = m.mainld) (hl : n.logs = m.logs) (ht : n.trace = m.trace) : KeepsLog m n :=
  .of_eq [] hm hl (ht.trans (List.append_nil _).symm) fun _ => List.not_mem_nil

theorem KeepsLog.openLog (m : Mem) (a : Addr) :
    KeepsLog m { m.update a fun c => { c with ld := some m.logs.brk } with logs := m.logs.alloc () } := by
  refine ⟨rfl, Nat.le_succ _, fun x hx _ => ⟨?_, Iff.rfl⟩⟩
  exact congrArg Option.isSome (m.logs.cell_alloc_ne () (Nat.ne_of_lt hx))

theorem keepsLog_logDel {l : Option Addr} (hl : l ≠ m.mainld) (h : logDel l m = some n) : KeepsLog m n := by
  cases l with
  | none =>
    cases h
    exact .refl m
  | some l =>
    simp only [logDel] at h
    cases hc : m.logs.cell l with
    | none => simp [hc] at h
    | some u =>
      simp only [hc, Option.some.injEq] at h
      subst h
      refine ⟨rfl, Nat.le_refl _, fun x _ hm => ?_⟩
      have hx : x ≠ l := fun he => hl (he ▸ hm.symm)
      refine ⟨congrArg Option.isSome (m.logs.cell_free_ne hx), ?_⟩
      simp [Mem.emit, hx]

theorem keepsLog_dlclose {l : Addr} (h : dlclose l m = some n) : KeepsLog m n := by
  simp only [dlclose] at h
  cases hc : m.libs.cell l with
  | none => simp [hc] at h
  | some u =>
    simp only [hc, Option.some.injEq] at h
    subst h
    exact .of_eq [.dlclose l] rfl rfl rfl (by simp)

theorem keepsLog_exec {a : Addr} {s : Cleanup} (h : s.exec a m = some n) : KeepsLog m n := by
  simp only [Cleanup.exec] at h
  cases hc : m.node a with
  | none => simp [hc] at h
  | some c =>
    simp only [hc] at h
    cases s with
    | logDel =>
      simp only at h
      split_ifs at h with hl
      · exact keepsLog_logDel hl.2 h
      · cases h
        exact .refl m
    | dlclose =>
      simp only at h
      cases hl : c.libdata.fdlib with
      | none =>
        rw [hl] at h
        cases h
        exact .refl m
      | some l =>
        rw [hl] at h
        exact keepsLog_dlclose h
    | free =>
      cases h
      exact .of_eq [.free a] rfl rfl rfl (by simp)
    | _ =>
      cases h
      exact .same rfl rfl rfl

theorem keepsLog_methodRet (who : Nat) (a : Addr) (k : Method) (ans : Ans) (m : Mem) :
    KeepsLog m (m.methodRet who a k ans) := by
  have hret : KeepsLog m (m.emit [.ret who a k ans.ret]) := .emit m (by simp)
  have hlog : ∀ n, KeepsLog m n → KeepsLog m (if ans.openLog then
      { n.update a fun c => { c with ld := some n.logs.brk } with logs := n.logs.alloc () } else n) := by
    intro n hn
    cases ans.openLog with
    | false => exact hn
    | true => exact hn.trans (.openLog n a)
  simp only [Mem.methodRet]
  cases ans.tidata with
  | none => exact hlog _ hret
  | some t => exact hlog _ (hret.trans (.same rfl rfl rfl))

theorem keepsLog_touch {who : Nat} {a : Addr} {k : Cycdata → Mem → Ctl Frame × Mem}
    (hk : ∀ c, KeepsLog (m.emit [.access who a]) (k c (m.emit [.access who a])).2) :
    KeepsLog m (touch who a m k).2 := by
  have hacc : KeepsLog m (m.emit [.access who a]) := .emit m (by simp)
  simp only [touch]
  cases (m.emit [.access who a]).node a with
  | none => exact hacc
  | some c => exact hacc.trans (hk c)

end Keeps

/-- The main log is open until a line loses it. -/
def MainLog (m : Mem) : Prop :=
  ∃ x, m.mainld = some x ∧ x < m.logs.brk ∧ ((m.logs.cell x).isSome ↔ .logDel x ∉ m.trace)

theorem MainLog.keep {m n : Mem} (h : MainLog m) (k : KeepsLog m n) : MainLog n := by
  obtain ⟨x, hx, hb, ho⟩ := h
  obtain ⟨hc, ht⟩ := k.log x hb hx
  exact ⟨x, k.mainld.trans hx, Nat.lt_of_lt_of_le hb k.brk, by rw [hc, ho, ht]⟩

/-- A line is written, or it loses its file and frees the main log. -/
theorem logLog_cases {lost : Bool} {m n : Mem} (h : m.logLog lost = some n) :
    n = m ∨ (lost = true ∧ ∃ x, m.mainld = some x ∧ n = { m with logs := m.logs.free x }.emit [.logDel x]) := by
  simp only [Mem.logLog] at h
  cases hl : m.mainld with
  | none =>
    rw [hl] at h
    cases h
    exact Or.inl rfl
  | some l =>
    simp only [hl] at h
    cases hc : m.logs.cell l with
    | none => simp [hc] at h
    | some u =>
      simp only [hc] at h
      split_ifs at h with hlost
      · simp only [logDel, hc, Option.some.injEq] at h
        refine Or.inr ⟨hlost, l, rfl, ?_⟩
        rw [← h, hl]
      · cases h
        exact Or.inl rfl

theorem MainLog.line {lost : Bool} {m n : Mem} (h : MainLog m) (hl : m.logLog lost = some n) : MainLog n := by
  obtain rfl | ⟨_, x, hx, rfl⟩ := logLog_cases hl
  · exact h
  · obtain ⟨y, hy, hb, _⟩ := h
    have hyx : y = x := Option.some.inj (hy.symm.trans hx)
    subst hyx
    exact ⟨y, hy, hb, by simp [Mem.emit]⟩

theorem tickStep_keepsLog (who : Nat) (pc : TickPc) (ans : Ans) (m : Mem) : KeepsLog m (tickStep who pc ans m).2 := by
  cases pc with
  | enter => rw [tickStep_enter]; exact .refl m
  | period a => exact keepsLog_touch fun c => by split_ifs <;> exact .refl _
  | bump a => exact keepsLog_touch fun c => .same rfl rfl rfl
  | compare a => exact keepsLog_touch fun c => by split_ifs <;> exact .refl _
  | reset a => exact keepsLog_touch fun c => .same rfl rfl rfl
  | method a ks =>
    cases ks with
    | nil => exact .refl m
    | cons k ks =>
      refine keepsLog_touch fun c => ?_
      split_ifs
      · exact .refl _
      · exact .emit _ (by simp)
  | wait a k ks =>
    simp only [tickStep]
    split_ifs <;> exact keepsLog_methodRet who a k ans m
  | next a =>
    refine keepsLog_touch fun c => ?_
    cases c.next <;> exact .refl _

theorem mainStep_keepsLog (dirch : List Byte) (pc : MainPc) (ans : Ans) (m : Mem) :
    KeepsLog m (mainStep dirch pc ans m).2 := by
  cases pc with
  | loadFile =>
    simp only [mainStep]
    cases ans.conf <;> exact .same rfl rfl rfl
  | readFile =>
    simp only [mainStep]
    cases ans.files <;> exact .same rfl rfl rfl
  | opendir =>
    simp only [mainStep]
    split_ifs
    · exact .emit m (by simp)
    · exact .refl m
  | readdir k =>
    simp only [mainStep]
    cases ans.entry with
    | none => exact .emit m (by simp)
    | some e =>
      simp only
      split_ifs <;> exact .refl m
  | dlopen e k =>
    simp only [mainStep]
    cases e.lib <;> exact .same rfl rfl rfl
  | dlsym i ok k =>
    simp only [mainStep]
    split_ifs
    · cases hd : dlclose i.dirhandletem m with
      | none => exact .refl m
      | some n => exact keepsLog_dlclose hd
    · exact .refl m
  | malloc i ok k => cases ok <;> exact .same rfl rfl rfl
  | linkHead tem i k =>
    simp only [mainStep]
    cases hl : linkHead tem m with
    | none => exact .refl m
    | some n =>
      simp only [linkHead] at hl
      repeat' split at hl
      all_goals first | cases hl; exact .same rfl rfl rfl | cases hl
  | fill tem i fs k => cases fs <;> exact .same rfl rfl rfl
  | toSet =>
    simp only [mainStep]
    split_ifs <;> exact .refl m
  | bind chead fs =>
    cases fs with
    | nil => exact .refl m
    | cons f fs =>
      simp only [mainStep]
      repeat' split
      all_goals exact .refl m
  | sweep cyctem =>
    cases cyctem with
    | none => exact .refl m
    | some a =>
      simp only [mainStep]
      repeat' split
      all_goals exact .refl m
  | unlink a cycnext =>
    simp only [mainStep]
    split
    · exact .refl m
    · exact .refl m
    · next BB _ =>
      cases hu : unlinkCycdata a BB m with
      | none => exact .refl m
      | some n =>
        simp only [unlinkCycdata] at hu
        repeat' split at hu
        · cases hu
        · obtain ⟨c, _, hc⟩ := Option.map_eq_some_iff.mp hu
          subst hc
          exact .same rfl rfl rfl
        · cases hu
          exact .same rfl rfl rfl
        · cases hu
  | cleanup a ss cycnext =>
    cases ss with
    | nil => exact .refl m
    | cons s ss =>
      simp only [mainStep]
      cases he : s.exec a m with
      | none => exact .refl m
      | some n => exact keepsLog_exec he
  | initAt cyctem => cases cyctem <;> exact .refl m
  | method a ks =>
    cases ks with
    | nil =>
      simp only [mainStep]
      cases m.nxt a <;> exact .refl m
    | cons k ks =>
      simp only [mainStep]
      cases m.node a with
      | none => exact .refl m
      | some c =>
        simp only
        split_ifs
        · exact .refl m
        · exact .emit m (by simp)
  | wait a k ks =>
    simp only [mainStep]
    split_ifs <;> exact keepsLog_methodRet 0 a k ans m
  | linkTail tem i k => exact .same rfl rfl rfl
  | setFdate a f chead fs => exact .same rfl rfl rfl
  | setLd a chead fs => exact .same rfl rfl rfl
  | _ => exact .refl m

/-- gameover has released the main log. -/
def Frame.closed : Frame → Bool
  | .gameover _ _ .mainld => true
  | .gameover _ _ .exit => true
  | _ => false

/-- Apart from its own line gameover leaves the main log alone until it releases it. -/
theorem overStep_keepsLog (who : Nat) (sig : Bool) (pc : OverPc) (ans : Ans) (m : Mem) (hpc : pc ≠ .log)
    (hdel : pc ≠ .logDel) (hmain : pc ≠ .mainld) : KeepsLog m (overStep who sig pc ans m).2 := by
  have hacc : ∀ a, KeepsLog m (m.emit [.access who a]) := fun a => .emit m (by simp)
  have hclean : ∀ (a : Addr) (s : Cleanup) (n : Mem),
      (n = m.emit [.access who a] ∨ s.exec a (m.emit [.access who a]) = some n) → KeepsLog m n := by
    intro a s n hn
    cases hn with
    | inl hn => exact hn ▸ hacc a
    | inr hn => exact (hacc a).trans (keepsLog_exec hn)
  cases pc with
  | log => exact absurd rfl hpc
  | logDel => exact absurd rfl hdel
  | mainld => exact absurd rfl hmain
  | start => exact (overStep_start who sig ans m).symm ▸ .refl m
  | before a ss =>
    cases ss with
    | nil => exact .refl m
    | cons s ss =>
      obtain ⟨n, hn, hs⟩ := clean_cases who a s (.gameover who sig (.before a ss)) m
      rw [show (overStep who sig (.before a (s :: ss)) ans m).2 = n from hn]
      exact hclean a s n hs
  | timeDel a =>
    refine keepsLog_touch fun c => ?_
    split_ifs
    · exact .refl _
    · exact .emit _ (by simp)
  | wait a => exact .emit m (by simp)
  | after a ss =>
    cases ss with
    | nil => exact .refl m
    | cons s ss =>
      obtain ⟨n, hn, hs⟩ := clean_cases who a s (.gameover who sig (.after a ss)) m
      rw [show (overStep who sig (.after a (s :: ss)) ans m).2 = n from hn]
      exact hclean a s n hs
  | takeNext a => exact keepsLog_touch fun c => .refl _
  | free a tem =>
    simp only [overStep]
    cases he : Cleanup.exec a m .free with
    | none => exact .refl m
    | some n => cases tem <;> exact keepsLog_exec he
  | cychead => exact .same rfl rfl rfl
  | cycheadnext => exact .same rfl rfl rfl
  | shead =>
    simp only [overStep]
    split_ifs
    · exact .refl m
    · exact .of_eq [.freeShead] rfl rfl rfl (by simp)
  | filehead =>
    refine .of_eq (freeFiledate m.filehead) rfl rfl rfl fun x hx => ?_
    obtain (⟨a, h⟩ | ⟨a, h⟩) := freeFiledate_events hx
    all_goals cases h
  | exit => exact .emit m (by simp)

def Mem.LogOpen (m : Mem) : Prop := ∃ x, m.mainld = some x ∧ x < m.logs.brk ∧ (m.logs.cell x).isSome

theorem Mem.LogOpen.keep {m n : Mem} (h : m.LogOpen) (k : KeepsLog m n) : n.LogOpen := by
  obtain ⟨x, hx, hb, ho⟩ := h
  exact ⟨x, k.mainld.trans hx, Nat.lt_of_lt_of_le hb k.brk, (k.log x hb hx).1.trans ho⟩

theorem Mem.LogOpen.line {m : Mem} (h : m.LogOpen) : m.logLog false = some m := by
  obtain ⟨x, hx, _, ho⟩ := h
  obtain ⟨u, hu⟩ := Option.isSome_iff_exists.mp ho
  simp [Mem.logLog, hx, hu]

/-- The frame on top can use the main log, or it is a gameover that has released it. -/
def LogAlive (c : Config Frame Mem) : Prop := ∀ f ∈ c.stack.head?, f.closed = true ∨ c.mem.LogOpen

/-- The line of gameover keeps its file, and no signal comes when gameover has released the main log. -/
def KeepsFile (c : Config Frame Mem) : Label Ans Signal → Prop
  | .run ans => ∀ who sig, c.stack.head? = some (.gameover who sig .log) → ans.lost = false
  | .signal _ => ∀ f ∈ c.stack.head?, f.closed = false

theorem LogAlive.next {dirch : List Byte} {c c' : Config Frame Mem} {l : Label Ans Signal} (h : LogAlive c)
    (hok : KeepsFile c l) (hn : (daemon dirch).next c l = some c') : LogAlive c' := by
  obtain ⟨fs, m⟩ := c
  cases fs with
  | nil => cases l <;> cases hn
  | cons f fs =>
    have hf := h f rfl
    cases l with
    | signal s =>
      have hopen : m.LogOpen := hf.resolve_left fun hc => Bool.noConfusion (hc.symm.trans (hok f rfl))
      simp only [Machine.next] at hn
      split_ifs at hn
      cases hn
      have hsame : KeepsLog m ((daemon dirch).enter s m).2 := by cases s <;> exact .same rfl rfl rfl
      exact fun g _ => Or.inr (hopen.keep hsame)
    | run ans =>
      cases hn
      have hkeep : KeepsLog m ((daemon dirch).step f ans m).2 → f.closed = false →
          LogAlive ⟨((daemon dirch).step f ans m).1.apply fs, ((daemon dirch).step f ans m).2⟩ := fun hk hc g _ =>
        Or.inr ((hf.resolve_left fun ht => Bool.noConfusion (ht.symm.trans hc)).keep hk)
      cases f with
      | main pc => exact hkeep (mainStep_keepsLog dirch pc ans m) rfl
      | tick who pc => exact hkeep (tickStep_keepsLog who pc ans m) rfl
      | gameover who sig pc =>
        by_cases hc : (Frame.gameover who sig pc).closed = true
        · -- what follows the release of the main log
          cases pc with
          | mainld =>
            intro g hg
            cases hg
            exact Or.inl rfl
          | exit => exact fun g hg => by cases hg
          | _ => cases hc
        · have hopen := hf.resolve_left hc
          by_cases hlog : pc = .log
          · subst hlog
            have hlost : ans.lost = false := hok who sig rfl
            have hline : overStep who sig .log ans m = (.goto (.gameover who sig .start), m) := by
              simp only [overStep, hlost, hopen.line]
            intro g _
            simp only [daemon, hline]
            exact Or.inr hopen
          by_cases hdel : pc = .logDel
          · subst hdel
            intro g hg
            simp only [daemon, overStep] at hg
            cases hd : logDel m.mainld m with
            | none =>
              rw [hd] at hg
              cases hg
            | some n =>
              rw [hd] at hg
              cases hg
              exact Or.inl rfl
          have hmain : pc ≠ .mainld := fun he => hc (by rw [he]; rfl)
          exact hkeep (overStep_keepsLog who sig pc ans m hlog hdel hmain) (by simpa using hc)

theorem LogAlive.reach {dirch : List Byte} {ok : Config Frame Mem → Label Ans Signal → Prop} {c₀ c : Config Frame Mem}
    (hok : ∀ d l, ok d l → KeepsFile d l) (h0 : LogAlive c₀) (hr : (daemon dirch).Reach ok c₀ c) : LogAlive c :=
  hr.keep (I := LogAlive) h0 fun d l _ _ hI hokd hn => hI.next (hok d l hokd) hn

/-- The runs of `ok` in which no line loses its file. -/
def Kept (ok : Config Frame Mem → Label Ans Signal → Prop) (c : Config (Layer Frame Nat) Mem) : Label Ans Signal → Prop
  | .run ans =>
    match c.stack.head? with
    | some (.aside _) => ans.lost = false
    | _ => ok c.code (.run ans)
  | .signal s => ok c.code (.signal s)

theorem lines_open (libwhere : Bool) (f : Frame) (ans : Ans) (m : Mem) (g : Frame)
    (h : lines libwhere f ans m g ≠ []) : g.closed = false := by
  cases f with
  | gameover who sig pc => exact absurd rfl h
  | main pc =>
    cases g with
    | gameover who sig q => exact absurd rfl h
    | _ => rfl
  | tick who pc =>
    cases g with
    | gameover who' sig q => exact absurd rfl h
    | _ => rfl

section Kept
variable {dirch : List Byte} {libwhere : Bool} {ok : Config Frame Mem → Label Ans Signal → Prop}

/-- As long as no line loses its file, the daemon with its log lines does what it does without them. -/
theorem kept_code {c : Config Frame Mem} {e₀ e : Config (Layer Frame Nat) Mem} (hok : ∀ d l, ok d l → KeepsFile d l)
    (hc : e₀.code = c) (hg : Machine.Grounded (fun g => g.closed = false) e₀.stack) (h0 : LogAlive c)
    (hr : (loggedDaemon dirch libwhere).Reach (Kept ok) e₀ e) : (daemon dirch).Reach ok c e.code := by
  subst hc
  refine hr.code_reach hg (fun f ans m g n _ hj => lines_open libwhere f ans m g hj) (fun f fs m ans h => h)
    (fun d s _ h => h) fun g fs m n ls ans hd hw hok' => ?_
  have hlost : ans.lost = false := hok'
  have hopen := (h0.reach hok hd g rfl).resolve_left fun ht => Bool.noConfusion (ht.symm.trans hw)
  rw [hlost]
  exact hopen.line

/-- And every such run is one of the daemon with its log lines. -/
theorem kept_lift {c₀ c : Config Frame Mem} {e₀ : Config (Layer Frame Nat) Mem} (hok : ∀ d l, ok d l → KeepsFile d l)
    (h0 : LogAlive c₀) (he : (loggedDaemon dirch libwhere).Reach (Kept ok) e₀ c₀.lift)
    (hr : (daemon dirch).Reach ok c₀ c) : (loggedDaemon dirch libwhere).Reach (Kept ok) e₀ c.lift := by
  let quiet : Ans := ⟨0, none, false, none, none, false, none, false⟩
  refine hr.lift he (fun d l hd => ?_) (fun f fs m ans g n hd hokd hk hj l _ => ⟨quiet, ?_, fun _ _ => rfl⟩)
    fun fs m => ⟨quiet, rfl⟩
  · obtain ⟨fs, m⟩ := d
    have hsame : ok (Config.code (Config.lift (L := Nat) ⟨fs, m⟩)) l := by rw [Machine.Config.code_lift]; exact hd
    cases l with
    | signal s => exact hsame
    | run ans => cases fs <;> exact hsame
  · have hnext : (daemon dirch).next ⟨f :: fs, m⟩ (.run ans) = some ⟨g :: fs, n⟩ := by
      simp only [Machine.next, hk]
      rfl
    have halive := (h0.reach hok hd).next (hok _ _ hokd) hnext
    have hopen := lines_open libwhere f ans m g hj
    exact ((halive g rfl).resolve_left fun ht => Bool.noConfusion (ht.symm.trans hopen)).line

end Kept

theorem logAlive_start : LogAlive daemonStart := fun _ _ => Or.inr ⟨0, rfl, Nat.one_pos, rfl⟩

/-- No signal, and no line that loses its file. -/
def Quiet (_ : Config Frame Mem) : Label Ans Signal → Prop
  | .run ans => ans.lost = false
  | .signal _ => False

theorem quiet_keepsFile (c : Config Frame Mem) (l : Label Ans Signal) (h : Quiet c l) : KeepsFile c l := by
  cases l with
  | run ans => exact fun _ _ _ => h
  | signal s => exact h.elim

theorem loggedStart_lift {dirch : List Byte} {libwhere : Bool} {ok : Config Frame Mem → Label Ans Signal → Prop}
    (confwhere : Bool) : (loggedDaemon dirch libwhere).Reach (Kept ok) (loggedStart confwhere) daemonStart.lift := by
  let quiet : Ans := ⟨0, none, false, none, none, false, none, false⟩
  cases confwhere with
  | false => exact .refl
  | true =>
    have hline : (loggedDaemon dirch libwhere).Reach (Kept ok) (loggedStart true) ⟨[.aside [], .code (.main .loadFile)], Mem.init⟩ :=
      Machine.Reach.refl.step (l := .run quiet) rfl rfl
    exact hline.step (l := .run quiet) rfl rfl

end TimeTask
