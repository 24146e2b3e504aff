import Mathlib.Data.Prod.Lex
import Mathlib.Data.List.Perm.Subperm
import TimeTask.Startup

/-! Nested signal handlers: how many there can be, and that they return to main. -/
namespace TimeTask
open Lib

/-- The invocations of which the stack has at most one each: main, the handlers of the two
signals, and the gameover of END. -/
inductive Kind where
  | main
  | tick
  | stop
  | over
deriving DecidableEq, Repr

def Frame.kind : Frame → Kind
  | .main _ => .main
  | .tick _ _ => .tick
  | .gameover _ true _ => .stop
  | .gameover _ false _ => .over

theorem above_kind {f g : Frame} (h : f.above g = true) : f.kind ≠ g.kind := by
  cases f with
  | main pc => cases h
  | tick who pc =>
    cases g with
    | main _ => simp [Frame.kind]
    | tick _ _ => cases h
    | gameover _ sig _ => cases sig <;> simp [Frame.kind]
  | gameover who sig pc =>
    cases g with
    | main _ => cases sig <;> simp [Frame.kind]
    | tick _ _ => cases sig <;> simp [Frame.kind]
    | gameover _ sig' _ =>
      cases sig <;> cases sig' <;> simp_all [Frame.kind, Frame.above]

/-- main stays at the bottom of the stack. -/
theorem main_below (dirch : List Byte) {c : Config Frame Mem}
    (hr : (daemon dirch).Reach (fun _ _ => True) daemonStart c) :
    c.stack = [] ∨ ∃ pc, c.stack.getLast? = some (.main pc) := by
  refine hr.keep (I := fun c => c.stack = [] ∨ ∃ pc, c.stack.getLast? = some (.main pc))
    (Or.inr ⟨_, rfl⟩) ?_
  intro c l c' hrc hI _ hn
  cases l with
  | signal s =>
    simp only [Machine.next] at hn
    split_ifs at hn with hblk
    simp only [Option.some.injEq] at hn
    subst hn
    cases hI with
    | inl he => simp [he] at hblk
    | inr hl =>
      obtain ⟨pc, hl⟩ := hl
      refine Or.inr ⟨pc, ?_⟩
      rw [List.getLast?_cons, hl]
      rfl
  | run a =>
    simp only [Machine.next] at hn
    cases hfs : c.stack with
    | nil => simp [hfs] at hn
    | cons f fs =>
      simp only [hfs, Option.some.injEq] at hn
      subst hn
      rw [hfs] at hI
      obtain ⟨pc, hl⟩ := hI.resolve_left (by simp)
      cases fs with
      | nil =>
        simp only [List.getLast?_singleton, Option.some.injEq] at hl
        subst hl
        cases hk : ((daemon dirch).step (.main pc) a c.mem).1 with
        | ret => exact Or.inl rfl
        | halt => exact Or.inl rfl
        | call g h =>
          rw [(daemon_call dirch hk).1]
          exact Or.inr ⟨_, rfl⟩
        | goto g =>
          have hs := mainStep_stays dirch pc a c.mem (by
            intro he
            subst he
            cases hk)
          rw [show (mainStep dirch pc a c.mem).1 = .goto g from hk] at hs
          obtain ⟨pc', hp, _⟩ := hs
          exact Or.inr ⟨pc', by simp [Ctl.apply, Ctl.frames, hp]⟩
      | cons g gs =>
        rw [List.getLast?_cons_cons] at hl
        cases hk : ((daemon dirch).step f a c.mem).1 with
        | halt => exact Or.inl rfl
        | ret => exact Or.inr ⟨pc, hl⟩
        | goto x => exact Or.inr ⟨pc, by simpa [Ctl.apply, Ctl.frames, List.getLast?_cons_cons] using hl⟩
        | call x y => exact Or.inr ⟨pc, by simpa [Ctl.apply, Ctl.frames, List.getLast?_cons_cons] using hl⟩

theorem stack_shape (dirch : List Byte) {c : Config Frame Mem}
    (hr : (daemon dirch).Reach (fun _ _ => True) daemonStart c) :
    c.stack = [] ∨ ∃ hs pc, c.stack = hs ++ [.main pc] ∧ (c.stack.map Frame.kind).Nodup ∧
      ∀ f ∈ hs, f.kind ≠ .main := by
  have hp := (daemon_sits dirch fun _ _ => True).reach hr (by simp [daemonStart])
  have hkinds : (c.stack.map Frame.kind).Nodup := by
    refine List.Pairwise.map Frame.kind (fun f g h => ?_) hp
    exact above_kind h
  cases main_below dirch hr with
  | inl he => exact Or.inl he
  | inr hl =>
    obtain ⟨pc, hl⟩ := hl
    obtain ⟨hs, he⟩ := List.getLast?_eq_some_iff.mp hl
    refine Or.inr ⟨hs, pc, he, hkinds, fun f hf => ?_⟩
    rw [he, List.map_append, List.nodup_append] at hkinds
    exact hkinds.2.2 _ (List.mem_map_of_mem hf) _ (List.mem_singleton_self _)

/-- In every run the process has ended, or main is at the bottom of the stack under at most three
handlers: one of each signal, in either order, and right above main the gameover of END. -/
theorem stack_nesting (dirch : List Byte) (c : Config Frame Mem)
    (hr : (daemon dirch).Reach (fun _ _ => True) daemonStart c) :
    c.stack = [] ∨ ∃ hs pc, c.stack = hs ++ [.main pc] ∧ hs.length ≤ 3 ∧
      (c.stack.map Frame.kind).Nodup ∧ ∀ f ∈ hs, f.kind = .over → hs.getLast? = some f := by
  cases stack_shape dirch hr with
  | inl he => exact Or.inl he
  | inr he =>
    obtain ⟨hs, pc, he, hkinds, hmain⟩ := he
    refine Or.inr ⟨hs, pc, he, ?_, hkinds, ?_⟩
    · have hall : c.stack.map Frame.kind ⊆ [.main, .tick, .stop, .over] :=
        fun k _ => by cases k <;> simp
      have hlen := (List.subperm_of_subset hkinds hall).length_le
      simp only [he, List.length_map, List.length_append, List.length_cons, List.length_nil] at hlen
      omega
    · intro f hf ho
      obtain ⟨k, l, hkl⟩ := List.append_of_mem hf
      subst hkl
      cases l with
      | nil => simp
      | cons g l =>
        -- nothing but main is below the gameover of END
        have hp := (daemon_sits dirch fun _ _ => True).reach hr (by simp [daemonStart])
        rw [he] at hp
        have hbelow := (List.pairwise_append.mp (List.pairwise_append.mp hp).1).2.1
        have hg := (List.pairwise_cons.mp hbelow).1 g (by simp)
        cases f with
        | main _ => cases ho
        | tick _ _ => cases ho
        | gameover who sig q =>
          cases sig with
          | true => cases ho
          | false =>
            cases g with
            | main q => exact absurd rfl (hmain (.main q) (by simp))
            | tick _ _ => cases hg
            | gameover _ _ _ => cases hg

/-- A stop signal during the seach of a tick that has come during init. -/
def stopInTick : List (Label Ans Signal) :=
  starts (fun _ => some 0) ++ tickToSeach ++ [.signal .usr1]

theorem stopInTick_reach : ∃ c : Config Frame Mem,
    (daemon []).Reach (fun _ _ => True) daemonStart c ∧ c.stack.map Frame.kind = [.stop, .tick, .main] := by
  have hx : ((daemon []).exec stopInTick daemonStart).map (fun c => c.stack.map Frame.kind) =
      some [.stop, .tick, .main] := by
    decide
  obtain ⟨c, hc, hk⟩ := Option.map_eq_some_iff.mp hx
  exact ⟨c, Machine.reach_of_exec stopInTick (fun _ _ _ => trivial) Machine.Reach.refl hc, hk⟩

theorem stack_nesting_stop : ∃ c : Config Frame Mem, c.stack.map Frame.kind = [.stop, .tick, .main] ∧
    ∃ hs pc, c.stack = hs ++ [.main pc] ∧ hs.length ≤ 3 := by
  obtain ⟨c, hr, hk⟩ := stopInTick_reach
  refine ⟨c, hk, ?_⟩
  cases stack_nesting [] c hr with
  | inl he => simp [he] at hk
  | inr he =>
    obtain ⟨hs, pc, he, hlen, _⟩ := he
    exact ⟨hs, pc, he, hlen⟩

/-- The assertion of each frame: links rise, and so does the walk of gameover. -/
def Winding (f : Frame) (m : Mem) : Prop :=
  match f with
  | .main pc => StartSafe (.main pc) m
  | .tick _ _ => Rising m
  | .gameover _ _ (.free a (some b)) => Rising m ∧ a < b
  | .gameover _ _ _ => Rising m

theorem Winding.rising {f : Frame} {m : Mem} (h : Winding f m) : Rising m := by
  cases f with
  | main pc => exact h.1
  | tick who pc => exact h
  | gameover who sig pc =>
    cases pc with
    | free a tem =>
      cases tem with
      | none => exact h
      | some b => exact h.1
    | _ => exact h

theorem Winding.keep {E : Event → Prop} {m n : Mem} (hk : Keep E m n) {f : Frame} (h : Winding f m) :
    Winding f n := by
  have hr := h.rising.keep hk
  cases f with
  | main pc => exact StartSafe.keep hk (by simp) h
  | tick who pc => exact hr
  | gameover who sig pc =>
    cases pc with
    | free a tem =>
      cases tem with
      | none => exact hr
      | some b => exact ⟨hr, h.2⟩
    | _ => exact hr

/-- gameover releases a node with the successor that it has just read. -/
theorem overStep_frees (who : Nat) (sig : Bool) (pc : OverPc) (ans : Ans) (m : Mem) :
    (overStep who sig pc ans m).1.Stays fun g =>
      ∀ w s a b, g = .gameover w s (.free a (some b)) → m.nxt a = some (some b) := by
  cases pc with
  | log => exact exec_stays (by simp) m _
  | start =>
    simp only [overStep]
    split_ifs
    · trivial
    · cases m.cychead <;> simp
  | before a ss =>
    cases ss with
    | nil => simp [overStep]
    | cons s ss => exact touch_stays fun c _ m' => exec_stays (by simp) m' (s.exec a m')
  | timeDel a => exact touch_stays fun c _ m' => by split_ifs <;> simp
  | wait a => simp [overStep]
  | after a ss =>
    cases ss with
    | nil => simp [overStep]
    | cons s ss => exact touch_stays fun c _ m' => exec_stays (by simp) m' (s.exec a m')
  | takeNext a =>
    refine touch_stays fun c hc m' => ?_
    simp only [Ctl.stays_goto]
    intro w s x y he
    simp only [Frame.gameover.injEq, OverPc.free.injEq] at he
    obtain ⟨_, _, hx, hy⟩ := he
    rw [← hx, ← hy]
    exact Mem.nxt_of_node hc
  | free a tem =>
    simp only [overStep]
    cases Cleanup.exec a m .free with
    | none => trivial
    | some m' => cases tem <;> simp
  | shead =>
    simp only [overStep]
    split_ifs <;> simp
  | logDel => exact exec_stays (by simp) m _
  | _ => simp [overStep]

theorem overStep_walks (who : Nat) (sig : Bool) (pc : OverPc) (ans : Ans) {m : Mem} (h : Rising m) :
    ∀ g ∈ (overStep who sig pc ans m).1.frames, Winding g (overStep who sig pc ans m).2 := by
  intro g hg
  have hr := h.stop who sig pc ans
  have hfree := (overStep_frees who sig pc ans m).frames g hg
  obtain ⟨q, hq⟩ := (overStep_stays who sig pc ans m).frames g hg
  subst hq
  cases q with
  | free a tem =>
    cases tem with
    | none => exact hr
    | some b => exact ⟨hr, h.next a b (hfree who sig a b rfl)⟩
  | _ => exact hr

theorem winding_keeps (dirch : List Byte) : (daemon dirch).Keeps (fun _ _ => True) Frame.final
    (fun f g => f.above g = true) Winding := by
  refine ⟨daemon_sits dirch _, ?_, ?_, ?_, daemon_final dirch⟩
  · intro f ans m h g hg
    cases f with
    | main pc =>
      have hs := mainStep_startSafe dirch pc ans m h g hg
      cases g with
      | main q => exact hs
      | tick who q => exact hs.1
      | gameover who sig q =>
        by_cases hpc : pc = .END
        · subst hpc
          simp only [daemon, mainStep, Ctl.frames, List.mem_cons, Frame.gameover.injEq, reduceCtorEq,
            List.not_mem_nil, or_false] at hg
          rw [hg.2.2]
          exact hs.1
        · obtain ⟨q', hq, _⟩ := (mainStep_stays dirch pc ans m hpc).frames _ hg
          cases hq
    | tick who pc =>
      obtain ⟨q, hq⟩ := (tickStep_stays who pc ans m).frames g hg
      rw [hq]
      exact Rising.tick h who pc ans
    | gameover who sig pc => exact overStep_walks who sig pc ans h.rising g hg
  · intro f ans m _ hf _ g hfg hg
    cases f with
    | main pc => cases hfg
    | tick who pc =>
      cases hp : pc.node with
      | some a => exact hg.keep (tickStep_local who pc ans m a hp).toKeep
      | none =>
        cases pc with
        | enter => exact (tickStep_enter who ans m).symm ▸ hg
        | _ => cases hp
    | gameover who sig pc =>
      cases pc with
      | log => exact hg.keep (overStep_log (E := fun _ => True) (fun _ _ => trivial) who sig ans m 0).toKeep
      | start => exact (overStep_start who sig ans m).symm ▸ hg
      | _ => cases hf
  · intro c s f fs _ _ hf
    have hk : Keep (fun _ => True) c.mem { c.mem with signals := c.mem.signals + 1 } :=
      (enter_local c.mem _ 0).toKeep
    cases s with
    | alarm => exact ⟨hf.rising.keep hk, fun g hg => hg.keep hk⟩
    | usr1 => exact ⟨hf.rising.keep hk, fun g hg => hg.keep hk⟩

/-- Where a tick is, and how many statements it has at most before it leaves the node. -/
def TickPc.rank (brk : Nat) : TickPc → ℕ ×ₗ ℕ
  | .enter => toLex (brk + 1, 0)
  | .period a => toLex (brk - a, 11)
  | .bump a => toLex (brk - a, 10)
  | .compare a => toLex (brk - a, 9)
  | .reset a => toLex (brk - a, 8)
  | .method a ks => toLex (brk - a, 2 * ks.length + 1)
  | .wait a _ ks => toLex (brk - a, 2 * ks.length + 2)
  | .next a => toLex (brk - a, 0)

def OverPc.rank (brk : Nat) : OverPc → ℕ ×ₗ ℕ
  | .log => toLex (brk + 2, 0)
  | .start => toLex (brk + 1, 0)
  | .before a ss => toLex (brk - a, ss.length + 7)
  | .timeDel a => toLex (brk - a, 6)
  | .wait a => toLex (brk - a, 5)
  | .after a ss => toLex (brk - a, ss.length + 2)
  | .takeNext a => toLex (brk - a, 1)
  | .free a _ => toLex (brk - a, 0)
  | .cychead => toLex (0, 7)
  | .cycheadnext => toLex (0, 6)
  | .shead => toLex (0, 5)
  | .filehead => toLex (0, 4)
  | .logDel => toLex (0, 3)
  | .mainld => toLex (0, 2)
  | .exit => toLex (0, 1)

def Frame.rank (f : Frame) (m : Mem) : ℕ ×ₗ ℕ :=
  match f with
  | .main _ => toLex (0, 0)
  | .tick _ pc => pc.rank m.nodes.brk
  | .gameover _ _ pc => pc.rank m.nodes.brk

theorem rank_lt {p q x y : Nat} (h : p < x ∨ p = x ∧ q < y) : (toLex (p, q) : ℕ ×ₗ ℕ) < toLex (x, y) :=
  Prod.Lex.toLex_lt_toLex.mpr h

theorem rank_next {m : Mem} {a b x y : Nat} {c : Cycdata} (hc : m.node a = some c) (hab : a < b) :
    (toLex (m.nodes.brk - b, x) : ℕ ×ₗ ℕ) < toLex (m.nodes.brk - a, y) := by
  have ha : a < m.nodes.brk := m.nodes.lt_brk hc
  refine rank_lt (Or.inl ?_)
  omega

theorem tickStep_sinks (who : Nat) (pc : TickPc) (ans : Ans) {m : Mem} (h : Rising m) :
    (tickStep who pc ans m).1.Stays fun g =>
      ∃ q, g = .tick who q ∧ q.rank m.nodes.brk < pc.rank m.nodes.brk := by
  cases pc with
  | enter =>
    simp only [tickStep]
    cases m.cychead with
    | none => trivial
    | some a => exact ⟨_, rfl, rank_lt (Or.inl (by omega))⟩
  | period a =>
    refine touch_stays fun c _ m' => ?_
    split_ifs <;> exact ⟨_, rfl, rank_lt (by omega)⟩
  | bump a => exact touch_stays fun c _ m' => ⟨_, rfl, rank_lt (by omega)⟩
  | compare a =>
    refine touch_stays fun c _ m' => ?_
    split_ifs <;> exact ⟨_, rfl, rank_lt (by omega)⟩
  | reset a => exact touch_stays fun c _ m' => ⟨_, rfl, rank_lt (by simp)⟩
  | method a ks =>
    cases ks with
    | nil => exact ⟨_, rfl, rank_lt (by omega)⟩
    | cons k ks =>
      refine touch_stays fun c _ m' => ?_
      split_ifs <;> exact ⟨_, rfl, rank_lt (Or.inr ⟨rfl, by simp only [List.length_cons]; omega⟩)⟩
  | wait a k ks =>
    simp only [tickStep]
    split_ifs <;> exact ⟨_, rfl, rank_lt (by omega)⟩
  | next a =>
    refine touch_stays fun c hc m' => ?_
    cases hn : c.next with
    | none => trivial
    | some b => exact ⟨_, rfl, rank_next hc (h.next a b (hn ▸ Mem.nxt_of_node hc))⟩

theorem overStep_sinks (who : Nat) (sig : Bool) (pc : OverPc) (ans : Ans) {m : Mem}
    (h : Winding (.gameover who sig pc) m) : (overStep who sig pc ans m).1.Stays fun g =>
      ∃ q, g = .gameover who sig q ∧ q.rank m.nodes.brk < pc.rank m.nodes.brk := by
  cases pc with
  | log => exact exec_stays ⟨_, rfl, rank_lt (by omega)⟩ m _
  | start =>
    simp only [overStep]
    split_ifs
    · trivial
    · cases m.cychead with
      | none => exact ⟨_, rfl, rank_lt (by omega)⟩
      | some a => exact ⟨_, rfl, rank_lt (by omega)⟩
  | before a ss =>
    cases ss with
    | nil => exact ⟨_, rfl, rank_lt (by simp)⟩
    | cons s ss =>
      exact touch_stays fun c _ m' => exec_stays ⟨_, rfl, rank_lt (by simp)⟩ m' (s.exec a m')
  | timeDel a =>
    refine touch_stays fun c _ m' => ?_
    split_ifs <;> exact ⟨_, rfl, rank_lt (by simp)⟩
  | wait a => exact ⟨_, rfl, rank_lt (by simp)⟩
  | after a ss =>
    cases ss with
    | nil => exact ⟨_, rfl, rank_lt (by simp)⟩
    | cons s ss =>
      exact touch_stays fun c _ m' => exec_stays ⟨_, rfl, rank_lt (by simp)⟩ m' (s.exec a m')
  | takeNext a => exact touch_stays fun c _ m' => ⟨_, rfl, rank_lt (by omega)⟩
  | free a tem =>
    simp only [overStep]
    cases he : Cleanup.exec a m .free with
    | none => trivial
    | some m' =>
      obtain ⟨c, hc⟩ : ∃ c, m.node a = some c := by
        cases hc : m.node a with
        | none => simp [Cleanup.exec, hc] at he
        | some c => exact ⟨c, rfl⟩
      cases tem with
      | none =>
        have ha : a < m.nodes.brk := m.nodes.lt_brk hc
        exact ⟨_, rfl, rank_lt (Or.inl (Nat.sub_pos_of_lt ha))⟩
      | some b => exact ⟨_, rfl, rank_next hc h.2⟩
  | shead =>
    simp only [overStep]
    split_ifs <;> exact ⟨_, rfl, rank_lt (by omega)⟩
  | logDel => exact exec_stays ⟨_, rfl, rank_lt (by omega)⟩ m _
  | exit => trivial
  | _ => exact ⟨_, rfl, rank_lt (by omega)⟩

theorem exec_brk {m n : Mem} {a : Addr} {s : Cleanup} (he : s.exec a m = some n) :
    n.nodes.brk = m.nodes.brk := by
  by_cases hs : s.plain = true
  · exact (exec_local (E := fun _ => True) (fun _ _ => trivial) hs he).brk
  · simp only [Cleanup.exec] at he
    cases hc : m.node a with
    | none => simp [hc] at he
    | some c =>
      rw [hc] at he
      cases s with
      | next =>
        cases he
        rfl
      | free =>
        cases he
        rfl
      | _ => exact absurd rfl hs

theorem tickStep_brk (who : Nat) (pc : TickPc) (ans : Ans) (m : Mem) :
    (tickStep who pc ans m).2.nodes.brk = m.nodes.brk := by
  cases hp : pc.node with
  | some a => exact (tickStep_local who pc ans m a hp).brk
  | none =>
    cases pc with
    | enter => rw [tickStep_enter]
    | _ => cases hp

theorem overStep_brk (who : Nat) (sig : Bool) (pc : OverPc) (ans : Ans) (m : Mem) :
    (overStep who sig pc ans m).2.nodes.brk = m.nodes.brk := by
  have hclean : ∀ (a : Addr) (s : Cleanup) (n : Mem),
      (n = m.emit [.access who a] ∨ s.exec a (m.emit [.access who a]) = some n) →
      n.nodes.brk = m.nodes.brk := by
    intro a s n hn
    cases hn with
    | inl hn =>
      rw [hn]
      rfl
    | inr hn => exact (exec_brk hn).trans rfl
  cases pc with
  | log => exact (overStep_log (E := fun _ => True) (fun _ _ => trivial) who sig ans m 0).brk
  | start => rw [overStep_start]
  | before a ss =>
    cases ss with
    | nil => rfl
    | cons s ss =>
      obtain ⟨n, hn, hs⟩ := clean_cases who a s (.gameover who sig (.before a ss)) m
      rw [show (overStep who sig (.before a (s :: ss)) ans m).2 = n from hn]
      exact hclean a s n hs
  | timeDel a => exact (overStep_local who sig (.timeDel a) ans m a rfl rfl).brk
  | wait a => exact (overStep_local who sig (.wait a) ans m a rfl rfl).brk
  | after a ss =>
    cases ss with
    | nil => rfl
    | cons s ss =>
      obtain ⟨n, hn, hs⟩ := clean_cases who a s (.gameover who sig (.after a ss)) m
      rw [show (overStep who sig (.after a (s :: ss)) ans m).2 = n from hn]
      exact hclean a s n hs
  | takeNext a => exact (overStep_local who sig (.takeNext a) ans m a rfl rfl).brk
  | free a tem =>
    simp only [overStep]
    cases he : Cleanup.exec a m .free with
    | none => rfl
    | some n => cases tem <;> exact exec_brk he
  | shead =>
    simp only [overStep]
    split_ifs <;> rfl
  | logDel =>
    simp only [overStep]
    cases he : TimeTask.logDel m.mainld m with
    | none => rfl
    | some n => exact (logDel_local (E := fun _ => True) (fun _ _ => trivial) 0 he).brk
  | _ => rfl

theorem daemon_sinks (dirch : List Byte) (f : Frame) (ans : Ans) (m : Mem) (h : Winding f m)
    (hf : f.kind ≠ .main) : ((daemon dirch).step f ans m).1.Stays fun g =>
      g.rank ((daemon dirch).step f ans m).2 < f.rank m := by
  cases f with
  | main pc => exact absurd rfl hf
  | tick who pc =>
    have hs := tickStep_sinks who pc ans h
    have hb := tickStep_brk who pc ans m
    simp only [daemon]
    cases hk : (tickStep who pc ans m).1 with
    | goto g =>
      rw [hk] at hs
      obtain ⟨q, hq, hlt⟩ := hs
      rw [hq, Ctl.stays_goto, Frame.rank, hb]
      exact hlt
    | call x y =>
      rw [hk] at hs
      exact hs
    | _ => trivial
  | gameover who sig pc =>
    have hs := overStep_sinks who sig pc ans h
    have hb := overStep_brk who sig pc ans m
    simp only [daemon]
    cases hk : (overStep who sig pc ans m).1 with
    | goto g =>
      rw [hk] at hs
      obtain ⟨q, hq, hlt⟩ := hs
      rw [hq, Ctl.stays_goto, Frame.rank, hb]
      exact hlt
    | call x y =>
      rw [hk] at hs
      exact hs
    | _ => trivial

/-- Whatever signals have come before, and in whatever order: once no more come, the handlers
return to main or end the process, for all that the modules and the log files answer. -/
theorem handlers_unwind (dirch : List Byte) (c : Config Frame Mem)
    (hr : (daemon dirch).Reach (fun _ _ => True) daemonStart c) (answers : Nat → Ans) :
    ∃ n d, (daemon dirch).exec ((List.range n).map fun i => .run (answers i)) c = some d ∧
      (d.stack = [] ∨ ∃ pc, d.stack = [.main pc]) := by
  have h0 : Winding (.main .loadFile) Mem.init := by
    refine ⟨⟨fun a b hab => ?_, fun t ht => by cases ht⟩, trivial⟩
    simp [Mem.nxt, Heap.next, Mem.init] at hab
  obtain ⟨n, d, hd, hrest⟩ := (winding_keeps dirch).unwinds
    (by simpa [daemonStart, Machine.alive, Frame.final] using h0) (by simp [daemonStart])
    (fun _ _ => trivial) Frame.rank (fun f => f.kind = .main)
    (fun f ans m hJ hf => daemon_sinks dirch f ans m hJ hf) hr answers
  refine ⟨n, d, hd, ?_⟩
  have hrd := Machine.reach_of_runs (by simp) (fun _ _ => trivial) hr hd
  cases stack_shape dirch hrd with
  | inl he => exact Or.inl he
  | inr he =>
    obtain ⟨hs, pc, he, _, hm⟩ := he
    cases hs with
    | nil => exact Or.inr ⟨pc, he⟩
    | cons f fs =>
      rw [he] at hrest
      exact absurd (hrest f rfl) (hm f (by simp))

theorem handlers_unwind_stop : ∃ c : Config Frame Mem, c.stack.map Frame.kind = [.stop, .tick, .main] ∧
    ∃ n d, (daemon []).exec ((List.range n).map fun _ => .run (world fun _ => some 0)) c = some d ∧
      (d.stack = [] ∨ ∃ pc, d.stack = [.main pc]) := by
  obtain ⟨c, hr, hk⟩ := stopInTick_reach
  exact ⟨c, hk, handlers_unwind [] c hr fun _ => world fun _ => some 0⟩

end TimeTask
