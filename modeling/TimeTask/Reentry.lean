import TimeTask.Process

/-! SIGUSR1 against the module calls that it interrupts. -/
namespace TimeTask
open Lib

/-- The module whose init, login, seach, howdo or send the frame is in. -/
def Frame.inCall : Frame → Option Addr
  | .main (.wait a _ _) => some a
  | .tick _ (.wait a _ _) => some a
  | _ => none

/-- The module whose deldate gameover is about to call, or whose library it is about to close. -/
def Frame.releasing : Frame → Option Addr
  | .gameover _ _ (.timeDel a) => some a
  | .gameover _ _ (.after a (.dlclose :: _)) => some a
  | _ => none

/-- The library `liba.so` with the given symbols. -/
def liba (syms : Method → Option Addr) : Entry where
  dName := [108, 105, 98, 97, 46, 115, 111]
  nulFree := by decide
  lib := some syms
  malloc := true

/-- A world with one section, `a`, and one library for it, whose methods succeed. -/
def world (syms : Method → Option Addr) : Ans where
  ret := 0
  tidata := none
  openLog := false
  conf := some [97, 0]
  files := some [(0, ⟨[97], []⟩)]
  dir := true
  entry := some (liba syms)
  lost := false

def loads (syms : Method → Option Addr) : List (Label Ans Signal) :=
  List.replicate 19 (.run (world syms))

def starts (syms : Method → Option Addr) : List (Label Ans Signal) :=
  loads syms ++ List.replicate 11 (.run { world syms with entry := none })

/-- SIGUSR1 during init, up to the call of deldate of the same module. -/
def stopInCall : List (Label Ans Signal) :=
  starts (fun _ => some 0) ++ .signal .usr1 :: List.replicate 6 (.run (world fun _ => some 0))

theorem gameover_in_call : ∃ c : Config Frame Mem, (daemon []).Reach (fun _ _ => True) daemonStart c ∧
    ∃ f fs a, c.stack = f :: fs ∧ f.releasing = some a ∧ ∃ g ∈ fs, g.inCall = some a := by
  have hx : (((daemon []).exec stopInCall daemonStart).map fun c =>
      c.stack.map fun f => (f.releasing, f.inCall)) = some [(some 0, none), (none, some 0)] := by
    decide
  obtain ⟨c, hc, hs⟩ := Option.map_eq_some_iff.mp hx
  obtain ⟨f, fs, hst, hf, hfs⟩ := List.map_eq_cons_iff.mp hs
  obtain ⟨g, gs, hgs, hg, _⟩ := List.map_eq_cons_iff.mp hfs
  refine ⟨c, Machine.reach_of_exec stopInCall (fun _ _ _ => trivial) Machine.Reach.refl hc, f, fs, 0,
    hst, congrArg Prod.fst hf, g, ?_, congrArg Prod.snd hg⟩
  simp [hgs]

def paused (syms : Method → Option Addr) : List (Label Ans Signal) :=
  starts syms ++ List.replicate 5 (.run (world syms))

theorem paused_run (syms : Method → Option Addr) : ∀ l ∈ paused syms, ∃ a, l = .run a := by
  intro l hl
  simp only [paused, starts, loads, List.mem_append, List.mem_replicate] at hl
  obtain ((hl | hl) | hl) := hl
  all_goals exact ⟨_, hl.2⟩

end TimeTask
