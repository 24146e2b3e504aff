import TimeTask.Binding
import TimeTask.Lib.Interrupt
import TimeTask.LoadLib
import TimeTask.ReadFile

/-! The daemon after its two sigaction calls: main, the handler cycleTimeMethod of SIGALRM
and the handler gameover of SIGUSR1, one statement at a time. A log line of main or of a
tick touches no node and is left out; the one that gameover starts with is not. -/
namespace TimeTask
open Lib

/-- What the world answers in one step; each statement looks at the part it asks for. -/
structure Ans where
  /-- the value a module method returns, the period it sets, and whether it opens a log -/
  ret : Int
  tidata : Option Onedate
  openLog : Bool
  /-- the results of loadFile and readFile -/
  conf : Option (List Byte)
  files : Option (List (Addr × Filedate))
  /-- opendir, and the next name of the directory -/
  dir : Bool
  entry : Option Entry
  /-- the log file cannot be opened again after a rotation -/
  lost : Bool

/-- Where cycleTimeMethod stands; `method` and `wait` are in TimeDo. -/
inductive TickPc where
  | enter
  | period (a : Addr)
  | bump (a : Addr)
  | compare (a : Addr)
  | reset (a : Addr)
  | method (a : Addr) (ks : List Method)
  | wait (a : Addr) (k : Method) (ks : List Method)
  | next (a : Addr)
deriving DecidableEq, Repr

/-- Where gameover stands; `timeDel` and `wait` are in TimeDel. -/
inductive OverPc where
  | log
  | start
  | before (a : Addr) (ss : List Cleanup)
  | timeDel (a : Addr)
  | wait (a : Addr)
  | after (a : Addr) (ss : List Cleanup)
  | takeNext (a : Addr)
  | free (a : Addr) (tem : Option Addr)
  | cychead
  | cycheadnext
  | shead
  | filehead
  | logDel
  | mainld
  | exit
deriving DecidableEq, Repr

/-- Where main stands, with loadLib, toSetCycdata, freeCycdata and TimeInit written out. -/
inductive MainPc where
  | loadFile
  | readFile
  | opendir
  | readdir (libnumhas : Nat)
  | dlopen (e : Entry) (libnumhas : Nat)
  | dlsym (i : LibInfo) (malloc : Bool) (libnumhas : Nat)
  | malloc (i : LibInfo) (ok : Bool) (libnumhas : Nat)
  | linkHead (tem : Addr) (i : LibInfo) (libnumhas : Nat)
  | linkTail (tem : Addr) (i : LibInfo) (libnumhas : Nat)
  | fill (tem : Addr) (i : LibInfo) (fs : List Field) (libnumhas : Nat)
  | toSet
  | bind (chead : Option Addr) (fs : List (Addr × Filedate))
  | setFdate (a f : Addr) (chead : Option Addr) (fs : List (Addr × Filedate))
  | setLd (a : Addr) (chead : Option Addr) (fs : List (Addr × Filedate))
  | sweep (cyctem : Option Addr)
  | unlink (a : Addr) (cycnext : Option Addr)
  | cleanup (a : Addr) (ss : List Cleanup) (cycnext : Option Addr)
  | timeInit
  | initAt (cyctem : Option Addr)
  | method (a : Addr) (ks : List Method)
  | wait (a : Addr) (k : Method) (ks : List Method)
  | pause
  | END
  | done

/-- `who` numbers the invocation; `sig` tells whether gameover is the handler or was called
at END. -/
inductive Frame where
  | main (pc : MainPc)
  | tick (who : Nat) (pc : TickPc)
  | gameover (who : Nat) (sig : Bool) (pc : OverPc)

inductive Signal where
  | alarm
  | usr1
deriving DecidableEq, Repr

namespace Mem

/-- A module method returns: it may have set the period of its node or given it a log. -/
def methodRet (who : Nat) (a : Addr) (k : Method) (ans : Ans) (m : Mem) : Mem :=
  let m := m.emit [.ret who a k ans.ret]
  let m := match ans.tidata with
    | none => m
    | some t => m.update a fun c => { c with tidata := t }
  if ans.openLog then
    { m.update a fun c => { c with ld := some m.logs.brk } with logs := m.logs.alloc () }
  else m

/-- `++(cyctem->tidata.value.len)` -/
def bump (a : Addr) (m : Mem) : Mem :=
  m.update a fun c => { c with tidata := { c.tidata with
    value := { c.tidata.value with len := toInt (c.tidata.value.len + 1) } } }

def reset (a : Addr) (m : Mem) : Mem :=
  m.update a fun c => { c with tidata := { c.tidata with value := { c.tidata.value with len := 0 } } }

/-- logLog on mainld: a handle that was released is used, or is released now. -/
def logLog (lost : Bool) (m : Mem) : Option Mem :=
  match m.mainld with
  | none => some m
  | some l =>
    match m.logs.cell l with
    | none => none
    | some _ => if lost then TimeTask.logDel (some l) m else some m

end Mem

theorem methodRet_trace (who : Nat) (a : Addr) (k : Method) (ans : Ans) (m : Mem) :
    (m.methodRet who a k ans).trace = m.trace ++ [.ret who a k ans.ret] := by
  simp only [Mem.methodRet]
  cases ans.tidata <;> cases ans.openLog <;> rfl

/-- The process dies on the access to a released object. -/
def crash (m : Mem) : Ctl Frame × Mem := (.halt, m)

/-- A handler reads or writes the node `a`. -/
def touch (who : Nat) (a : Addr) (m : Mem) (k : Cycdata → Mem → Ctl Frame × Mem) : Ctl Frame × Mem :=
  let m := m.emit [.access who a]
  match m.node a with
  | none => crash m
  | some c => k c m

def tickStep (who : Nat) (pc : TickPc) (ans : Ans) (m : Mem) : Ctl Frame × Mem :=
  let goto (pc : TickPc) (m : Mem) : Ctl Frame × Mem := (.goto (.tick who pc), m)
  let walk (p : Option Addr) (m : Mem) : Ctl Frame × Mem :=
    match p with
    | none => (.ret, m)
    | some a => goto (.period a) m
  match pc with
  | .enter => walk m.cychead m
  | .period a => touch who a m fun c m =>
      if c.tidata.key.len ≥ 0 then goto (.bump a) m else goto (.next a) m
  | .bump a => touch who a m fun _ m => goto (.compare a) (m.bump a)
  | .compare a => touch who a m fun c m =>
      if c.tidata.key.len < c.tidata.value.len then goto (.reset a) m else goto (.next a) m
  | .reset a => touch who a m fun _ m => goto (.method a [.seach, .howdo, .send]) (m.reset a)
  | .method a [] => goto (.next a) m
  | .method a (k :: ks) => touch who a m fun c m =>
      if c.method k = none then goto (.method a ks) m else goto (.wait a k ks) (m.emit [.call who a k])
  | .wait a k ks =>
      let m := m.methodRet who a k ans
      if ans.ret < 0 then goto (.next a) m else goto (.method a ks) m
  | .next a => touch who a m fun c m => walk c.next m

def overStep (who : Nat) (sig : Bool) (pc : OverPc) (ans : Ans) (m : Mem) : Ctl Frame × Mem :=
  let goto (pc : OverPc) (m : Mem) : Ctl Frame × Mem := (.goto (.gameover who sig pc), m)
  let walk (p : Option Addr) (m : Mem) : Ctl Frame × Mem :=
    match p with
    | none => goto .cychead m
    | some a => goto (.before a [.fdate, .logDel, .ld]) m
  let clean (a : Addr) (s : Cleanup) (pc : OverPc) (m : Mem) : Ctl Frame × Mem :=
    touch who a m fun _ m =>
      match s.exec a m with
      | none => crash m
      | some m => goto pc m
  match pc with
  | .log =>
    match m.logLog ans.lost with
    | none => crash m
    | some m => goto .start m
  | .start => if m.cychead = none then (.ret, m) else walk m.cychead m
  | .before a [] => goto (.timeDel a) m
  | .before a (s :: ss) => clean a s (.before a ss) m
  | .timeDel a => touch who a m fun c m =>
      if c.deldate = none then goto (.after a [.dlclose, .fdlib]) m
      else goto (.wait a) (m.emit [.call who a .deldate])
  | .wait a => goto (.after a [.dlclose, .fdlib]) (m.emit [.ret who a .deldate ans.ret])
  | .after a [] => goto (.takeNext a) m
  | .after a (s :: ss) => clean a s (.after a ss) m
  | .takeNext a => touch who a m fun c m => goto (.free a c.next) m
  | .free a tem =>
    match Cleanup.exec a m .free with
    | none => crash m
    | some m => walk tem m
  | .cychead => goto .cycheadnext { m with cychead := none }
  | .cycheadnext => goto .shead { m with cycheadnext := none }
  | .shead =>
    if m.shead = none then goto .filehead m
    else goto .filehead ({ m with shead := none }.emit [.freeShead])
  | .filehead => goto .logDel ({ m with filehead := [] }.emit (freeFiledate m.filehead))
  | .logDel =>
    match TimeTask.logDel m.mainld m with
    | none => crash m
    | some m => goto .mainld m
  | .mainld => goto .exit { m with mainld := none }
  | .exit => (.halt, m.emit [.exit])

/-- `dirch` is the library directory. -/
def mainStep (dirch : List Byte) (pc : MainPc) (ans : Ans) (m : Mem) : Ctl Frame × Mem :=
  let goto (pc : MainPc) (m : Mem) : Ctl Frame × Mem := (.goto (.main pc), m)
  match pc with
  | .loadFile =>
    match ans.conf with
    | none => goto .END { m with shead := none }
    | some head => goto .readFile { m with shead := some head }
  | .readFile =>
    match ans.files with
    | none => goto .END { m with filehead := [] }
    | some files => goto .opendir { m with filehead := files }
  | .opendir => if ans.dir then goto (.readdir 0) (m.emit [.opendir]) else goto .END m
  | .readdir n =>
    match ans.entry with
    | none => goto (if n = 0 then .END else .toSet) (m.emit [.closedir])
    | some e =>
      if !e.candidate then goto (.readdir n) m
      else if 64 ≤ (e.chbb dirch).length then crash m
      else goto (.dlopen e n) m
  | .dlopen e n =>
    match e.lib with
    | none => goto .END m
    | some syms =>
      let (h, m) := dlopen m
      goto (.dlsym ⟨h, e.chaa, e.chbb dirch, syms⟩ e.malloc n) m
  | .dlsym i ok n =>
    if Method.all.all fun k => (i.syms k).isNone then
      match dlclose i.dirhandletem m with
      | none => crash m
      | some m => goto .END m
    else goto (.malloc i ok n) m
  | .malloc i ok n =>
    if ok then
      let (tem, m) := cycmakeMalloc none m
      goto (.linkHead tem i n) m
    else goto .END m
  | .linkHead tem i n =>
    match linkHead tem m with
    | none => crash m
    | some m => goto (.linkTail tem i n) m
  | .linkTail tem i n => goto (.fill tem i fields n) (linkTail tem m)
  | .fill _ _ [] n => goto (.readdir (n + 1)) m
  | .fill tem i (f :: fs) n => goto (.fill tem i fs n) (m.update tem fun c => f.store i c)
  | .toSet =>
    if m.filehead = [] ∨ m.cychead = none then goto .END m
    else goto (.bind m.cychead m.filehead) m
  | .bind chead [] => goto (.sweep chead) m
  | .bind chead (f :: fs) =>
    match matchModule m f.2.name chead with
    | none => crash m
    | some none => goto .END m
    | some (some a) =>
      match m.node a with
      | none => crash m
      | some c => if c.fdate ≠ none then goto .END m else goto (.setFdate a f.1 chead fs) m
  | .setFdate a f chead fs => goto (.setLd a chead fs) (setFdate a f m)
  | .setLd a chead fs => goto (.bind chead fs) (setLd a m)
  | .sweep none => goto .timeInit m
  | .sweep (some a) =>
    match m.node a with
    | none => crash m
    | some c => if c.fdate = none then goto (.unlink a c.next) m else goto (.sweep c.next) m
  | .unlink a cycnext =>
    match freeSearch m a m.nodes.brk m.cychead none with
    | none => crash m
    | some none => goto .END m
    | some (some BB) =>
      match unlinkCycdata a BB m with
      | none => crash m
      | some m => goto (.cleanup a freeCleanup cycnext) m
  | .cleanup _ [] cycnext => goto (.sweep cycnext) m
  | .cleanup a (s :: ss) cycnext =>
    match s.exec a m with
    | none => crash m
    | some m => goto (.cleanup a ss cycnext) m
  | .timeInit => goto (.initAt m.cychead) m
  | .initAt none => goto .pause m
  | .initAt (some a) => goto (.method a [.init, .login]) m
  | .method a [] =>
    match m.nxt a with
    | none => crash m
    | some r => goto (.initAt r) m
  | .method a (k :: ks) =>
    match m.node a with
    | none => crash m
    | some c =>
      if c.method k = none then goto (.method a ks) m else goto (.wait a k ks) (m.emit [.call 0 a k])
  | .wait a k ks =>
    let m := m.methodRet 0 a k ans
    if ans.ret < 0 then goto .END m else goto (.method a ks) m
  | .pause => goto .pause m
  | .END => (.call (.main .done) (.gameover 0 false .log), m)
  | .done => (.ret, m)

/-- The daemon as a machine: each handler blocks its own signal and no other. -/
def daemon (dirch : List Byte) : Machine Frame Ans Signal Mem where
  step f ans m :=
    match f with
    | .main pc => mainStep dirch pc ans m
    | .tick who pc => tickStep who pc ans m
    | .gameover who sig pc => overStep who sig pc ans m
  enter s m :=
    let who := m.signals + 1
    match s with
    | .alarm => (.tick who .enter, { m with signals := who })
    | .usr1 => (.gameover who true .log, { m with signals := who })
  blocks f s :=
    match f, s with
    | .tick _ _, .alarm => true
    | .gameover _ true _, .usr1 => true
    | _, _ => false

/-- main behind the two sigaction calls. -/
def daemonStart : Config Frame Mem := ⟨[.main .loadFile], Mem.init⟩

/-- gameover does not return once it has found a module list. -/
def Frame.final : Frame → Bool
  | .gameover _ _ .log => false
  | .gameover _ _ .start => false
  | .gameover _ _ _ => true
  | _ => false

/-- Which frame can lie above which: main is at the bottom, a handler blocks its own signal,
and the gameover of END is called from main. -/
def Frame.above : Frame → Frame → Bool
  | .main _, _ => false
  | .tick _ _, .tick _ _ => false
  | .tick _ _, _ => true
  | .gameover _ true _, .gameover _ true _ => false
  | .gameover _ true _, _ => true
  | .gameover _ false _, .main _ => true
  | .gameover _ false _, _ => false

theorem touch_stays {P : Frame → Prop} {who : Nat} {a : Addr} {m : Mem}
    {k : Cycdata → Mem → Ctl Frame × Mem} (h : ∀ c, m.node a = some c → ∀ m', (k c m').1.Stays P) :
    (touch who a m k).1.Stays P := by
  simp only [touch, Mem.node_emit]
  cases hc : m.node a with
  | none => trivial
  | some c => exact h c hc _

theorem exec_stays {P : Frame → Prop} {f : Frame} (hf : P f) (m : Mem) (r : Option Mem) :
    (match r with
      | none => crash m
      | some m' => (.goto f, m') : Ctl Frame × Mem).1.Stays P := by
  cases r with
  | none => trivial
  | some m' => exact hf

theorem tickStep_stays (who : Nat) (pc : TickPc) (ans : Ans) (m : Mem) :
    (tickStep who pc ans m).1.Stays fun g => ∃ pc', g = .tick who pc' := by
  have hwalk : ∀ (p : Option Addr) (m' : Mem), (match p with
      | none => (.ret, m')
      | some a => (.goto (.tick who (.period a)), m') : Ctl Frame × Mem).1.Stays
        fun g => ∃ pc', g = .tick who pc' := by
    intro p m'
    cases p <;> simp
  cases pc with
  | enter => exact hwalk m.cychead m
  | period a => exact touch_stays fun c _ m' => by split_ifs <;> simp
  | bump a => exact touch_stays fun c _ m' => by simp
  | compare a => exact touch_stays fun c _ m' => by split_ifs <;> simp
  | reset a => exact touch_stays fun c _ m' => by simp
  | method a ks =>
    cases ks with
    | nil => simp [tickStep]
    | cons k ks => exact touch_stays fun c _ m' => by split_ifs <;> simp
  | wait a k ks =>
    simp only [tickStep]
    split_ifs <;> simp
  | next a => exact touch_stays fun c _ m' => hwalk c.next m'

theorem overStep_stays (who : Nat) (sig : Bool) (pc : OverPc) (ans : Ans) (m : Mem) :
    (overStep who sig pc ans m).1.Stays fun g => ∃ pc', g = .gameover who sig pc' := by
  have hwalk : ∀ (p : Option Addr) (m' : Mem), (match p with
      | none => (.goto (.gameover who sig .cychead), m')
      | some a => (.goto (.gameover who sig (.before a [.fdate, .logDel, .ld])), m') :
        Ctl Frame × Mem).1.Stays fun g => ∃ pc', g = .gameover who sig pc' := by
    intro p m'
    cases p <;> simp
  cases pc with
  | log => exact exec_stays ⟨_, rfl⟩ m _
  | start =>
    simp only [overStep]
    split_ifs
    · trivial
    · exact hwalk m.cychead m
  | before a ss =>
    cases ss with
    | nil => simp [overStep]
    | cons s ss => exact touch_stays fun c _ m' => exec_stays ⟨_, rfl⟩ m' (s.exec a m')
  | timeDel a => exact touch_stays fun c _ m' => by split_ifs <;> simp
  | wait a => simp [overStep]
  | after a ss =>
    cases ss with
    | nil => simp [overStep]
    | cons s ss => exact touch_stays fun c _ m' => exec_stays ⟨_, rfl⟩ m' (s.exec a m')
  | takeNext a => exact touch_stays fun c _ m' => by simp
  | free a tem =>
    simp only [overStep]
    cases Cleanup.exec a m .free with
    | none => trivial
    | some m' => exact hwalk tem m'
  | shead =>
    simp only [overStep]
    split_ifs <;> simp
  | logDel => exact exec_stays ⟨_, rfl⟩ m _
  | _ => simp [overStep]

/-- gameover goes on for ever or ends the process, once it has found a module list. -/
theorem overStep_final (who : Nat) (sig : Bool) (pc : OverPc) (ans : Ans) (m : Mem)
    (hpc : (Frame.gameover who sig pc).final = true) : (overStep who sig pc ans m).1 = .halt ∨
      ∃ g, (overStep who sig pc ans m).1 = .goto g ∧ g.final = true := by
  have hwalk : ∀ (p : Option Addr) (m' : Mem) (r : Ctl Frame × Mem), r = (match p with
      | none => (.goto (.gameover who sig .cychead), m')
      | some a => (.goto (.gameover who sig (.before a [.fdate, .logDel, .ld])), m') :
        Ctl Frame × Mem) → r.1 = .halt ∨ ∃ g, r.1 = .goto g ∧ g.final = true := by
    intro p m' r hr
    subst hr
    cases p <;> exact Or.inr ⟨_, rfl, rfl⟩
  have hexec : ∀ (q : Option Mem) (m' : Mem) (g : Frame), g.final = true → (match q with
      | none => crash m'
      | some n => (.goto g, n) : Ctl Frame × Mem).1 = .halt ∨ ∃ g', (match q with
      | none => crash m'
      | some n => (.goto g, n) : Ctl Frame × Mem).1 = .goto g' ∧ g'.final = true := by
    intro q m' g hg
    cases q with
    | none => exact Or.inl rfl
    | some n => exact Or.inr ⟨g, rfl, hg⟩
  cases pc with
  | log => cases hpc
  | start => cases hpc
  | before a ss =>
    cases ss with
    | nil => exact Or.inr ⟨_, rfl, rfl⟩
    | cons s ss =>
      simp only [overStep, touch]
      cases (m.emit [.access who a]).node a with
      | none => exact Or.inl rfl
      | some c => exact hexec _ _ _ rfl
  | timeDel a =>
    simp only [overStep, touch]
    cases (m.emit [.access who a]).node a with
    | none => exact Or.inl rfl
    | some c =>
      simp only
      split_ifs <;> exact Or.inr ⟨_, rfl, rfl⟩
  | after a ss =>
    cases ss with
    | nil => exact Or.inr ⟨_, rfl, rfl⟩
    | cons s ss =>
      simp only [overStep, touch]
      cases (m.emit [.access who a]).node a with
      | none => exact Or.inl rfl
      | some c => exact hexec _ _ _ rfl
  | takeNext a =>
    simp only [overStep, touch]
    cases (m.emit [.access who a]).node a with
    | none => exact Or.inl rfl
    | some c => exact Or.inr ⟨_, rfl, rfl⟩
  | free a tem =>
    simp only [overStep]
    cases Cleanup.exec a m .free with
    | none => exact Or.inl rfl
    | some n => exact hwalk tem n _ rfl
  | shead =>
    simp only [overStep]
    split_ifs <;> exact Or.inr ⟨_, rfl, rfl⟩
  | logDel => exact hexec _ _ _ rfl
  | exit => exact Or.inl rfl
  | _ => exact Or.inr ⟨_, rfl, rfl⟩

theorem daemon_final (dirch : List Byte) (f : Frame) (ans : Ans) (m : Mem) (hf : f.final = true) :
    ((daemon dirch).step f ans m).1 = .halt ∨
      ∃ g, ((daemon dirch).step f ans m).1 = .goto g ∧ g.final = true := by
  cases f with
  | main pc => cases hf
  | tick who pc => cases hf
  | gameover who sig pc => exact overStep_final who sig pc ans m hf

/-- The statements of main that carry a node which is off the list or in a call. -/
def MainPc.guarded : MainPc → Bool
  | .linkHead _ _ _ => true
  | .linkTail _ _ _ => true
  | .cleanup _ _ _ => true
  | .method _ _ => true
  | .wait _ _ _ => true
  | _ => false

/-- The statements of main that lead to such a one. -/
def MainPc.guards : MainPc → Bool
  | .malloc _ _ _ => true
  | .unlink _ _ => true
  | .initAt _ => true
  | pc => pc.guarded

/-- main calls nothing but gameover, at END. -/
theorem mainStep_stays (dirch : List Byte) (pc : MainPc) (ans : Ans) (m : Mem) (hpc : pc ≠ .END) :
    (mainStep dirch pc ans m).1.Stays fun g =>
      ∃ pc', g = .main pc' ∧ (pc.guards = false → pc'.guarded = false) := by
  cases pc with
  | END => exact absurd rfl hpc
  | fill tem i fs n => cases fs <;> exact ⟨_, rfl, fun _ => rfl⟩
  | readdir n =>
    simp only [mainStep]
    cases ans.entry with
    | none => exact ⟨_, rfl, fun _ => by split_ifs <;> rfl⟩
    | some e =>
      simp only
      split_ifs
      · exact ⟨_, rfl, fun _ => rfl⟩
      · trivial
      · exact ⟨_, rfl, fun _ => rfl⟩
  | sweep cyctem =>
    cases cyctem with
    | none => exact ⟨_, rfl, fun _ => rfl⟩
    | some a =>
      simp only [mainStep]
      cases m.node a with
      | none => trivial
      | some c =>
        simp only
        split_ifs <;> exact ⟨_, rfl, fun _ => rfl⟩
  | bind chead fs =>
    cases fs with
    | nil => exact ⟨_, rfl, fun _ => rfl⟩
    | cons f fs =>
      simp only [mainStep]
      repeat' split
      all_goals first | trivial | exact ⟨_, rfl, fun _ => rfl⟩
  | cleanup a ss cycnext =>
    cases ss with
    | nil => exact ⟨_, rfl, fun h => by cases h⟩
    | cons s ss => exact exec_stays ⟨_, rfl, fun h => by cases h⟩ m (s.exec a m)
  | initAt cyctem => cases cyctem <;> exact ⟨_, rfl, fun h => by cases h⟩
  | method a ks =>
    cases ks <;> simp only [mainStep] <;> repeat' split
    all_goals first | trivial | exact ⟨_, rfl, fun h => by cases h⟩
  | wait a k ks =>
    simp only [mainStep]
    split_ifs <;> exact ⟨_, rfl, fun h => by cases h⟩
  | _ =>
    simp only [mainStep]
    repeat' split
    all_goals first | trivial | exact ⟨_, rfl, fun _ => rfl⟩ | exact ⟨_, rfl, fun h => by cases h⟩

theorem above_tick (who : Nat) (pc pc' : TickPc) (g : Frame) :
    (Frame.tick who pc).above g = (Frame.tick who pc').above g := by
  cases g <;> rfl

theorem above_over (who : Nat) (sig : Bool) (pc pc' : OverPc) (g : Frame) :
    (Frame.gameover who sig pc).above g = (Frame.gameover who sig pc').above g := by
  cases g with
  | main _ => cases sig <;> rfl
  | tick _ _ => cases sig <;> rfl
  | gameover _ sig' _ => cases sig <;> cases sig' <;> rfl

/-- The only call of the daemon is that of gameover at END. -/
theorem daemon_call (dirch : List Byte) {f g h : Frame} {ans : Ans} {m : Mem}
    (hc : ((daemon dirch).step f ans m).1 = .call g h) : g = .main .done ∧ h = .gameover 0 false .log := by
  cases f with
  | main pc =>
    by_cases hpc : pc = .END
    · subst hpc
      simp only [daemon, mainStep, Ctl.call.injEq] at hc
      exact ⟨hc.1.symm, hc.2.symm⟩
    · have hs := mainStep_stays dirch pc ans m hpc
      rw [show (mainStep dirch pc ans m).1 = .call g h from hc] at hs
      exact hs.elim
  | tick who pc =>
    have hs := tickStep_stays who pc ans m
    rw [show (tickStep who pc ans m).1 = .call g h from hc] at hs
    exact hs.elim
  | gameover who sig pc =>
    have hs := overStep_stays who sig pc ans m
    rw [show (overStep who sig pc ans m).1 = .call g h from hc] at hs
    exact hs.elim

theorem daemon_sits (dirch : List Byte) (ok : Config Frame Mem → Label Ans Signal → Prop) :
    (daemon dirch).Sits ok fun f g => f.above g = true := by
  refine ⟨?_, ?_, ?_⟩
  · intro f ans m g hfg h hh
    cases f with
    | main pc => cases hfg
    | tick who pc =>
      obtain ⟨pc', hp⟩ := (tickStep_stays who pc ans m).frames h hh
      rw [hp, above_tick who pc' pc]
      exact hfg
    | gameover who sig pc =>
      obtain ⟨pc', hp⟩ := (overStep_stays who sig pc ans m).frames h hh
      rw [hp, above_over who sig pc' pc]
      exact hfg
  · intro f ans m g h hc
    obtain ⟨hg, hh⟩ := daemon_call dirch hc
    rw [hg, hh]
    rfl
  · intro c s _ hb g hg
    have hg' := hb g hg
    cases s with
    | alarm =>
      cases g with
      | main pc => rfl
      | tick who pc => cases hg'
      | gameover who sig pc => rfl
    | usr1 =>
      cases g with
      | main pc => rfl
      | tick who pc => rfl
      | gameover who sig pc =>
        cases sig with
        | true => cases hg'
        | false => rfl

end TimeTask
