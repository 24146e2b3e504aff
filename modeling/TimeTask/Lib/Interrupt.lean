import Mathlib.Order.RelClasses
import Mathlib.Tactic.SplitIfs
import TimeTask.Lib.Loop

/-! Programs on one stack of frames that signals interrupt: a handler is a new
frame on top, and nothing below it runs before it has returned. -/
namespace TimeTask.Lib

/-- What a step of a frame does to the stack. -/
inductive Ctl (F : Type*) where
  | goto (f : F)
  | call (f g : F)
  | ret
  | halt

/-- The frames that replace the one that took the step. -/
def Ctl.frames {F : Type*} : Ctl F → List F
  | .goto f => [f]
  | .call f g => [g, f]
  | .ret => []
  | .halt => []

/-- The stack after the step; the process ends with an empty stack. -/
def Ctl.apply {F : Type*} (k : Ctl F) (fs : List F) : List F :=
  match k with
  | .halt => []
  | _ => k.frames ++ fs

/-- The step calls nothing, and a frame that goes on satisfies `P`. -/
def Ctl.Stays {F : Type*} (P : F → Prop) : Ctl F → Prop
  | .goto f => P f
  | .call _ _ => False
  | _ => True

@[simp] theorem Ctl.stays_goto {F : Type*} (P : F → Prop) (f : F) : (Ctl.goto f).Stays P = P f := rfl
@[simp] theorem Ctl.stays_ret {F : Type*} (P : F → Prop) : (Ctl.ret : Ctl F).Stays P = True := rfl
@[simp] theorem Ctl.stays_halt {F : Type*} (P : F → Prop) : (Ctl.halt : Ctl F).Stays P = True := rfl

theorem Ctl.Stays.imp {F : Type*} {P Q : F → Prop} {k : Ctl F} (h : k.Stays P) (hPQ : ∀ f, P f → Q f) : k.Stays Q := by
  cases k with
  | goto f => exact hPQ f h
  | call f g => exact h.elim
  | ret => trivial
  | halt => trivial

theorem Ctl.Stays.frames {F : Type*} {P : F → Prop} {k : Ctl F} (h : k.Stays P) :
    ∀ g ∈ k.frames, P g := by
  cases k with
  | goto f => simpa [Ctl.frames] using h
  | call f g => exact h.elim
  | ret => simp [Ctl.frames]
  | halt => simp [Ctl.frames]

/-- One step of the top frame on an answer of the environment, the handlers of the signals,
and the signals that a frame blocks while it is on the stack. -/
structure Machine (F A S M : Type*) where
  step : F → A → M → Ctl F × M
  enter : S → M → F × M
  blocks : F → S → Bool

structure Config (F M : Type*) where
  stack : List F
  mem : M

inductive Label (A S : Type*) where
  | run (a : A)
  | signal (s : S)

namespace Machine
variable {F A S M : Type*} (mc : Machine F A S M)

def next (c : Config F M) : Label A S → Option (Config F M)
  | .run a =>
    match c.stack with
    | [] => none
    | f :: fs => some ⟨(mc.step f a c.mem).1.apply fs, (mc.step f a c.mem).2⟩
  | .signal s =>
    if c.stack.isEmpty || c.stack.any fun f => mc.blocks f s then none
    else some ⟨(mc.enter s c.mem).1 :: c.stack, (mc.enter s c.mem).2⟩

/-- The configurations of the runs whose steps all satisfy `ok`. -/
inductive Reach (ok : Config F M → Label A S → Prop) (c₀ : Config F M) : Config F M → Prop
  | refl : Reach ok c₀ c₀
  | step {c c' : Config F M} {l : Label A S} (h : Reach ok c₀ c) (hok : ok c l)
      (hn : mc.next c l = some c') : Reach ok c₀ c'

/-- A whole sequence of steps. -/
def exec : List (Label A S) → Config F M → Option (Config F M)
  | [], c => some c
  | l :: ls, c => (mc.next c l).bind (exec ls)

variable {mc}

theorem Reach.keep {ok : Config F M → Label A S → Prop} {c₀ c : Config F M} {I : Config F M → Prop}
    (h : mc.Reach ok c₀ c) (h0 : I c₀)
    (hs : ∀ c l c', mc.Reach ok c₀ c → I c → ok c l → mc.next c l = some c' → I c') : I c := by
  induction h with
  | refl => exact h0
  | step hr hok hn ih => exact hs _ _ _ hr ih hok hn

theorem reach_of_exec {ok : Config F M → Label A S → Prop} {c₀ c c' : Config F M} (ls : List (Label A S))
    (hok : ∀ l ∈ ls, ∀ d, ok d l) (h : mc.Reach ok c₀ c) (he : mc.exec ls c = some c') :
    mc.Reach ok c₀ c' := by
  induction ls generalizing c with
  | nil =>
    simp only [exec, Option.some.injEq] at he
    exact he ▸ h
  | cons l ls ih =>
    simp only [exec, Option.bind_eq_some_iff] at he
    obtain ⟨d, hd, he⟩ := he
    exact ih (fun k hk => hok k (List.mem_cons_of_mem l hk)) (h.step (hok l (by simp) c) hd) he

theorem reach_of_runs {ok : Config F M → Label A S → Prop} {c₀ c c' : Config F M} {ls : List (Label A S)}
    (hls : ∀ l ∈ ls, ∃ a, l = .run a) (hok : ∀ d a, ok d (.run a)) (h : mc.Reach ok c₀ c)
    (he : mc.exec ls c = some c') : mc.Reach ok c₀ c' := by
  refine reach_of_exec ls (fun l hl d => ?_) h he
  obtain ⟨a, ha⟩ := hls l hl
  exact ha ▸ hok d a

theorem Ctl.apply_cases (k : Ctl F) (fs : List F) : k.apply fs = [] ∨ k.apply fs = k.frames ++ fs := by
  cases k <;> simp [Ctl.apply]

/-- A relation that holds between each frame and those below it. -/
structure Sits (mc : Machine F A S M) (ok : Config F M → Label A S → Prop) (above : F → F → Prop) :
    Prop where
  step : ∀ f a m g, above f g → ∀ h ∈ (mc.step f a m).1.frames, above h g
  call : ∀ f a m g h, (mc.step f a m).1 = .call g h → above h g
  enter : ∀ c s, ok c (.signal s) → (∀ g ∈ c.stack, mc.blocks g s = false) →
    ∀ g ∈ c.stack, above (mc.enter s c.mem).1 g

theorem Sits.next {ok : Config F M → Label A S → Prop} {above : F → F → Prop} (hs : Sits mc ok above)
    {c c' : Config F M} {l : Label A S} (hI : c.stack.Pairwise above) (hok : ok c l) (hn : mc.next c l = some c') :
    c'.stack.Pairwise above := by
  cases l with
  | signal s =>
    simp only [Machine.next] at hn
    split_ifs at hn with hblk
    simp only [Option.some.injEq] at hn
    subst hn
    refine List.pairwise_cons.mpr ⟨hs.enter c s hok fun g hg => ?_, hI⟩
    cases hb : mc.blocks g s with
    | false => rfl
    | true => exact absurd (Bool.or_eq_true_iff.mpr (Or.inr (List.any_eq_true.mpr ⟨g, hg, hb⟩))) hblk
  | run a =>
    simp only [Machine.next] at hn
    cases hfs : c.stack with
    | nil => simp [hfs] at hn
    | cons f fs =>
      simp only [hfs, Option.some.injEq] at hn
      subst hn
      rw [hfs] at hI
      obtain ⟨hf, hrest⟩ := List.pairwise_cons.mp hI
      cases Ctl.apply_cases (mc.step f a c.mem).1 fs with
      | inl he => simp [he]
      | inr he =>
        rw [he]
        refine List.pairwise_append.mpr ⟨?_, hrest, fun h hh g hg => hs.step f a c.mem g (hf g hg) h hh⟩
        cases hk : (mc.step f a c.mem).1 with
        | goto g => simp [Ctl.frames]
        | call g h => simpa [Ctl.frames] using hs.call f a c.mem g h hk
        | ret => simp [Ctl.frames]
        | halt => simp [Ctl.frames]

theorem Sits.reach {ok : Config F M → Label A S → Prop} {above : F → F → Prop}
    (hs : Sits mc ok above) {c₀ c : Config F M} (hr : mc.Reach ok c₀ c)
    (h0 : c₀.stack.Pairwise above) : c.stack.Pairwise above :=
  hr.keep (I := fun c => c.stack.Pairwise above) h0 fun _ _ _ _ hI hok hn => hs.next hI hok hn

/-- A frame that only a signal brings lies on the stack that its signal has found. -/
theorem Reach.entered {ok : Config F M → Label A S → Prop} {c₀ c : Config F M} {P : F → Prop}
    (hstays : ∀ f a m, P f → (mc.step f a m).1.Stays P)
    (hnew : ∀ f a m, ¬ P f → ∀ g ∈ (mc.step f a m).1.frames, ¬ P g) (h0 : ∀ f ∈ c₀.stack, ¬ P f)
    (hr : mc.Reach ok c₀ c) {k fs : List F} {f : F} (hc : c.stack = k ++ f :: fs) (hf : P f) :
    ∃ d s e g, mc.Reach ok c₀ d ∧ d.stack = fs ∧ ok d (.signal s) ∧ mc.next d (.signal s) = some e ∧
      e.stack = g :: fs ∧ P g ∧ mc.Reach ok e c := by
  refine hr.keep (I := fun c => ∀ k f fs, c.stack = k ++ f :: fs → P f → ∃ d s e g, mc.Reach ok c₀ d ∧
    d.stack = fs ∧ ok d (.signal s) ∧ mc.next d (.signal s) = some e ∧ e.stack = g :: fs ∧ P g ∧ mc.Reach ok e c)
    ?_ ?_ k f fs hc hf
  · intro k f fs hc hf
    exact absurd hf (h0 f (by rw [hc]; exact List.mem_append_right k List.mem_cons_self))
  · intro c l c' hrc hI hok hn k f fs hc hf
    -- the frame was there before the step, at the same place
    have hold : ∀ k' f', c.stack = k' ++ f' :: fs → P f' → ∃ d s e g, mc.Reach ok c₀ d ∧
        d.stack = fs ∧ ok d (.signal s) ∧ mc.next d (.signal s) = some e ∧ e.stack = g :: fs ∧ P g ∧
          mc.Reach ok e c' := by
      intro k' f' hst hf'
      obtain ⟨d, s, e, g, hd, hfs, hs, he, hg, hPg, hec⟩ := hI k' f' fs hst hf'
      exact ⟨d, s, e, g, hd, hfs, hs, he, hg, hPg, hec.step hok hn⟩
    obtain ⟨st, m⟩ := c
    cases l with
    | signal s =>
      have hsig := hn
      simp only [Machine.next] at hn
      split_ifs at hn
      cases hn
      cases k with
      | nil =>
        obtain ⟨hx, hst⟩ := List.cons.inj hc
        exact ⟨⟨st, m⟩, s, _, _, hrc, hst, hok, hsig, by rw [hst], hx ▸ hf, .refl⟩
      | cons x k => exact hold k f (List.cons.inj hc).2 hf
    | run a =>
      cases st with
      | nil => cases hn
      | cons x st =>
        have hst : c'.stack = (mc.step x a m).1.apply st := by
          cases hn
          rfl
        have hstay := hstays x a m
        have hfresh := hnew x a m
        rw [hst] at hc
        cases hk : (mc.step x a m).1 with
        | goto y =>
          rw [hk] at hc hfresh
          cases k with
          | nil =>
            obtain ⟨hy, hfs⟩ := List.cons.inj hc
            have hx : P x := not_not.mp fun hx => hfresh hx y (List.mem_singleton_self y) (hy ▸ hf)
            exact hold [] x (congrArg (x :: ·) hfs) hx
          | cons z k => exact hold (x :: k) f (congrArg (x :: ·) (List.cons.inj hc).2) hf
        | call y z =>
          rw [hk] at hc hstay hfresh
          have hyz : ∀ w ∈ [z, y], ¬ P w := fun w hw => hfresh (fun hx => hstay hx) w hw
          cases k with
          | nil => exact absurd hf ((List.cons.inj hc).1 ▸ hyz z (by simp))
          | cons w k =>
            have hrest := (List.cons.inj hc).2
            cases k with
            | nil => exact absurd hf ((List.cons.inj hrest).1 ▸ hyz y (by simp))
            | cons v k => exact hold (x :: k) f (congrArg (x :: ·) (List.cons.inj hrest).2) hf
        | ret =>
          rw [hk] at hc
          exact hold (x :: k) f (congrArg (x :: ·) hc) hf
        | halt =>
          rw [hk] at hc
          cases k <;> cases hc

/-- The frames that can still run: those down to the first one that never returns. -/
def alive (final : F → Bool) : List F → List F
  | [] => []
  | f :: fs => if final f then [f] else f :: alive final fs

theorem alive_subset {final : F → Bool} {fs : List F} : ∀ f ∈ alive final fs, f ∈ fs := by
  induction fs with
  | nil => simp [alive]
  | cons g fs ih =>
    intro f hf
    simp only [alive] at hf
    split_ifs at hf with hg
    · rw [List.mem_singleton.mp hf]
      exact List.mem_cons_self
    · cases List.mem_cons.mp hf with
      | inl he => exact he ▸ List.mem_cons_self
      | inr hf => exact List.mem_cons_of_mem g (ih f hf)

theorem alive_top {final : F → Bool} (f : F) (fs : List F) : f ∈ alive final (f :: fs) := by
  rw [alive]
  split_ifs <;> simp

theorem alive_frames {final : F → Bool} {k fs : List F} :
    ∀ g ∈ alive final (k ++ fs), g ∈ k ∨ ((∀ x ∈ k, final x = false) ∧ g ∈ alive final fs) := by
  induction k with
  | nil => exact fun g hg => Or.inr ⟨by simp, hg⟩
  | cons x k ih =>
    intro g hg
    rw [List.cons_append, alive] at hg
    by_cases hx : final x = true
    · rw [if_pos hx] at hg
      exact Or.inl (by simp [List.mem_singleton.mp hg])
    · rw [if_neg hx] at hg
      cases List.mem_cons.mp hg with
      | inl he => exact Or.inl (by simp [he])
      | inr hg =>
        cases ih g hg with
        | inl hk => exact Or.inl (List.mem_cons_of_mem x hk)
        | inr hk =>
          refine Or.inr ⟨fun y hy => ?_, hk.2⟩
          cases List.mem_cons.mp hy with
          | inl he => simpa [he] using hx
          | inr hy => exact hk.1 y hy

/-- An assertion for each frame that runs and signals keep, where final frames never return. -/
structure Keeps (mc : Machine F A S M) (ok : Config F M → Label A S → Prop) (final : F → Bool)
    (above : F → F → Prop) (J : F → M → Prop) : Prop where
  sits : Sits mc ok above
  step : ∀ f a m, J f m → ∀ g ∈ (mc.step f a m).1.frames, J g (mc.step f a m).2
  /-- A step of a frame that may return leaves the assertions of the frames below. -/
  stable : ∀ f a m, J f m → final f = false → (∀ g ∈ (mc.step f a m).1.frames, final g = false) →
    ∀ g, above f g → J g m → J g (mc.step f a m).2
  signal : ∀ c s f fs, c.stack = f :: fs → ok c (.signal s) → J f c.mem →
    J (mc.enter s c.mem).1 (mc.enter s c.mem).2 ∧ ∀ g, J g c.mem → J g (mc.enter s c.mem).2
  final_step : ∀ f a m, final f = true →
    (mc.step f a m).1 = .halt ∨ ∃ g, (mc.step f a m).1 = .goto g ∧ final g = true

/-- The assertions hold of every frame that can still run, in every reachable configuration. -/
theorem Keeps.reach {ok : Config F M → Label A S → Prop} {final : F → Bool} {above : F → F → Prop}
    {J : F → M → Prop} (hk : Keeps mc ok final above J) {c₀ c : Config F M} (hr : mc.Reach ok c₀ c)
    (h0 : ∀ f ∈ alive final c₀.stack, J f c₀.mem) (hp : c₀.stack.Pairwise above) :
    ∀ f ∈ alive final c.stack, J f c.mem := by
  refine hr.keep (I := fun c => ∀ f ∈ alive final c.stack, J f c.mem) h0 ?_
  intro c l c' hrc hJ hok hn
  have hB := hk.sits.reach hrc hp
  cases l with
  | signal s =>
    simp only [next] at hn
    split_ifs at hn with hblk
    simp only [Option.some.injEq] at hn
    subst hn
    have hne : c.stack ≠ [] := by
      intro he
      simp [he] at hblk
    obtain ⟨f, fs, hfs⟩ := List.exists_cons_of_ne_nil hne
    have htop : f ∈ alive final c.stack := hfs ▸ alive_top f fs
    obtain ⟨hnew, hold⟩ := hk.signal c s f fs hfs hok (hJ f htop)
    intro g hg
    simp only [alive] at hg
    split_ifs at hg with hfin
    · rw [List.mem_singleton.mp hg]
      exact hnew
    · cases List.mem_cons.mp hg with
      | inl he => exact he ▸ hnew
      | inr hg => exact hold g (hJ g hg)
  | run a =>
    simp only [next] at hn
    cases hfs : c.stack with
    | nil => simp [hfs] at hn
    | cons f fs =>
      simp only [hfs, Option.some.injEq] at hn
      subst hn
      rw [hfs] at hJ hB
      have hJf := hJ f (alive_top f fs)
      intro g hg
      cases Ctl.apply_cases (mc.step f a c.mem).1 fs with
      | inl he =>
        rw [he] at hg
        simp [alive] at hg
      | inr he =>
        rw [he] at hg
        cases alive_frames g hg with
        | inl hg => exact hk.step f a c.mem hJf g hg
        | inr hg =>
          obtain ⟨hnf, hga⟩ := hg
          have habove := (List.pairwise_cons.mp hB).1 g (alive_subset g hga)
          by_cases hfin : final f = true
          · cases hk.final_step f a c.mem hfin with
            | inl hh =>
              rw [hh] at he
              simp only [Ctl.apply, Ctl.frames, List.nil_append] at he
              rw [← he] at hga
              simp [alive] at hga
            | inr hh =>
              obtain ⟨x, hx, hxf⟩ := hh
              have hn := hnf x (by simp [hx, Ctl.frames])
              rw [hxf] at hn
              cases hn
          · have hf : final f = false := by simpa using hfin
            have hg' : g ∈ alive final (f :: fs) := by
              rw [alive, if_neg hfin]
              exact List.mem_cons_of_mem f hga
            exact hk.stable f a c.mem hJf hf hnf g habove (hJ g hg')

/-- What every step leaves behind holds of the memory throughout, also when the process has ended. -/
theorem Keeps.always {ok : Config F M → Label A S → Prop} {final : F → Bool} {above : F → F → Prop}
    {J : F → M → Prop} (hk : Keeps mc ok final above J) {c₀ c : Config F M} (hr : mc.Reach ok c₀ c)
    (h0 : ∀ f ∈ alive final c₀.stack, J f c₀.mem) (hp : c₀.stack.Pairwise above) {I : M → Prop}
    (hI : I c₀.mem) (hstep : ∀ f a m, J f m → I (mc.step f a m).2)
    (henter : ∀ s m, I m → I (mc.enter s m).2) : I c.mem := by
  refine hr.keep (I := fun c => I c.mem) hI ?_
  intro c l c' hrc hIc _ hn
  cases l with
  | signal s =>
    simp only [next] at hn
    split_ifs at hn
    simp only [Option.some.injEq] at hn
    subst hn
    exact henter s c.mem hIc
  | run a =>
    simp only [next] at hn
    cases hfs : c.stack with
    | nil => simp [hfs] at hn
    | cons f fs =>
      simp only [hfs, Option.some.injEq] at hn
      subst hn
      have hJ := hk.reach hrc h0 hp f
      rw [hfs] at hJ
      exact hstep f a c.mem (hJ (alive_top f fs))

/-- Without further signals, and whatever the environment answers, a stack unwinds to a frame at
rest when every other frame steps to one of smaller rank or leaves the stack. -/
theorem Keeps.unwinds {ok : Config F M → Label A S → Prop} {final : F → Bool} {above : F → F → Prop}
    {J : F → M → Prop} (hk : Keeps mc ok final above J) {c₀ : Config F M}
    (h0 : ∀ f ∈ alive final c₀.stack, J f c₀.mem) (hp : c₀.stack.Pairwise above)
    (hrun : ∀ d a, ok d (.run a)) {α : Type*} [LT α] [WellFoundedLT α] (rank : F → M → α)
    (rest : F → Prop) (hrank : ∀ f a m, J f m → ¬ rest f →
      (mc.step f a m).1.Stays fun g => rank g (mc.step f a m).2 < rank f m)
    {c : Config F M} (hr : mc.Reach ok c₀ c) (answers : Nat → A) :
    ∃ n d, mc.exec ((List.range n).map fun i => .run (answers i)) c = some d ∧
      ∀ f ∈ d.stack.head?, rest f := by
  obtain ⟨fs, m⟩ := c
  induction fs generalizing m answers with
  | nil => exact ⟨0, ⟨[], m⟩, rfl, by simp⟩
  | cons f fs ih =>
    -- the frames below wait while the rank of the top one decreases
    obtain ⟨x, hx⟩ : ∃ x, rank f m = x := ⟨_, rfl⟩
    induction x using WellFoundedLT.induction generalizing f m answers with
    | ind x ihr =>
      by_cases hrest : rest f
      · exact ⟨0, ⟨f :: fs, m⟩, rfl, by simpa using hrest⟩
      have hJ := hk.reach hr h0 hp f (alive_top f fs)
      have hlow := hrank f (answers 0) m hJ hrest
      have hgo : ∀ gs n, mc.next ⟨f :: fs, m⟩ (.run (answers 0)) = some ⟨gs, n⟩ →
          (∃ k d, mc.exec ((List.range k).map fun i => .run (answers (i + 1))) ⟨gs, n⟩ = some d ∧
            ∀ f ∈ d.stack.head?, rest f) →
          ∃ n d, mc.exec ((List.range n).map fun i => .run (answers i)) ⟨f :: fs, m⟩ = some d ∧
            ∀ f ∈ d.stack.head?, rest f := by
        intro gs n hn hk
        obtain ⟨k, d, hd, hrd⟩ := hk
        refine ⟨k + 1, d, ?_, hrd⟩
        rw [List.range_succ_eq_map, List.map_cons, List.map_map, exec, hn]
        exact hd
      have hnext : mc.next ⟨f :: fs, m⟩ (.run (answers 0)) =
          some ⟨(mc.step f (answers 0) m).1.apply fs, (mc.step f (answers 0) m).2⟩ := rfl
      cases hs : (mc.step f (answers 0) m).1 with
      | goto g =>
        rw [hs] at hlow hnext
        exact hgo _ _ hnext (ihr _ (hx ▸ hlow) g (fun i => answers (i + 1)) _ (hr.step (hrun _ _) hnext) rfl)
      | call g h =>
        rw [hs] at hlow
        exact hlow.elim
      | ret =>
        rw [hs] at hnext
        exact hgo _ _ hnext (ih (fun i => answers (i + 1)) _ (hr.step (hrun _ _) hnext))
      | halt =>
        rw [hs] at hnext
        exact hgo _ _ hnext ⟨0, ⟨[], _⟩, rfl, by simp⟩

/-- One frame on its own, without signals, on answers that depend on where it stands. It
leaves with `true` when it returns and with `false` when the process ends. A call is the
end of standing on its own. -/
def soloBody (mc : Machine F A S M) (env : F → A) (s : F × M) : Pass (F × M) (Bool × M) :=
  match mc.step s.1 (env s.1) s.2 with
  | (.goto f, m) => .again (f, m)
  | (.call _ _, m) => .leave (false, m)
  | (.ret, m) => .leave (true, m)
  | (.halt, m) => .leave (false, m)

/-- The same in a world that changes with the answers it gives. -/
def worldBody {W : Type*} (mc : Machine F A S M) (env : F → W → A × W) (s : F × M × W) :
    Pass (F × M × W) (Bool × M × W) :=
  match mc.step s.1 (env s.1 s.2.2).1 s.2.1 with
  | (.goto f, m) => .again (f, m, (env s.1 s.2.2).2)
  | (.call _ _, m) => .leave (false, m, (env s.1 s.2.2).2)
  | (.ret, m) => .leave (true, m, (env s.1 s.2.2).2)
  | (.halt, m) => .leave (false, m, (env s.1 s.2.2).2)

/-- Where a frame comes in its world is a run of the machine on top of any stack. -/
theorem Reach.world {W : Type*} {env : F → W → A × W} {ok : Config F M → Label A S → Prop} {c₀ : Config F M}
    {f g : F} {m n : M} {w v : W} {fs : List F} (hr : mc.Reach ok c₀ ⟨f :: fs, m⟩)
    (hok : ∀ g n w, ok ⟨g :: fs, n⟩ (.run (env g w).1)) (h : Goes (mc.worldBody env) (f, m, w) (g, n, v)) :
    mc.Reach ok c₀ ⟨g :: fs, n⟩ := by
  refine h.keep (I := fun s => mc.Reach ok c₀ ⟨s.1 :: fs, s.2.1⟩) hr fun s t hs hst => ?_
  have hnext : mc.next ⟨s.1 :: fs, s.2.1⟩ (.run (env s.1 s.2.2).1) =
      some ⟨(mc.step s.1 (env s.1 s.2.2).1 s.2.1).1.apply fs, (mc.step s.1 (env s.1 s.2.2).1 s.2.1).2⟩ := rfl
  have hstep := hs.step (hok s.1 s.2.1 s.2.2) hnext
  simp only [worldBody] at hst
  cases hk : mc.step s.1 (env s.1 s.2.2).1 s.2.1 with
  | mk k q =>
    rw [hk] at hst hstep
    cases k with
    | goto x =>
      cases hst
      exact hstep
    | _ => cases hst

end Machine

end TimeTask.Lib
