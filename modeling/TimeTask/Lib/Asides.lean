import TimeTask.Lib.Interrupt

/-! A machine whose steps leave work aside: between a step and the next one of the same frame a
list of jobs is worked off, and signals come in between as everywhere else. -/
namespace TimeTask.Lib

/-- A frame of the machine, or the jobs that the frame below it waits for. -/
inductive Layer (F L : Type*) where
  | code (f : F)
  | aside (ls : List L)

def Layer.code? {F L : Type*} : Layer F L → Option F
  | .code f => some f
  | .aside _ => none

/-- The configuration without its jobs. -/
def Config.code {F L M : Type*} (c : Config (Layer F L) M) : Config F M := ⟨c.stack.filterMap Layer.code?, c.mem⟩

/-- The configuration as one with jobs, all of them done. -/
def Config.lift {F L M : Type*} (c : Config F M) : Config (Layer F L) M := ⟨c.stack.map .code, c.mem⟩

namespace Machine
variable {F A S M L : Type*}

/-- `jobs f a m g` is what the step from `f` to `g` leaves aside; the process can die in a job. -/
def withAsides (mc : Machine F A S M) (jobs : F → A → M → F → List L) (job : L → A → M → Option M) :
    Machine (Layer F L) A S M where
  step
    | .code f, a, m =>
      match mc.step f a m with
      | (.goto g, n) => if (jobs f a m g).isEmpty then (.goto (.code g), n) else (.call (.code g) (.aside (jobs f a m g)), n)
      | (.call g h, n) => (.call (.code g) (.code h), n)
      | (.ret, n) => (.ret, n)
      | (.halt, n) => (.halt, n)
    | .aside [], _, m => (.ret, m)
    | .aside (l :: ls), a, m =>
      match job l a m with
      | none => (.halt, m)
      | some n => (.goto (.aside ls), n)
  enter s m := (.code (mc.enter s m).1, (mc.enter s m).2)
  blocks
    | .code f, s => mc.blocks f s
    | .aside _, _ => false

/-- Jobs lie above a frame of the machine that waits for them. -/
def Grounded (waits : F → Prop) : List (Layer F L) → Prop
  | [] => True
  | .code _ :: fs => Grounded waits fs
  | .aside _ :: fs => (∃ g gs, fs = .code g :: gs ∧ waits g) ∧ Grounded waits fs

/-- What a step of the machine with its jobs is without them: a step, a signal, or a job. -/
inductive Aside (mc : Machine F A S M) (job : L → A → M → Option M) (c : Config (Layer F L) M) :
    Label A S → Config (Layer F L) M → Prop
  | step {a : A} {f : F} {fs : List (Layer F L)} {c' : Config (Layer F L) M} (hc : c.stack = .code f :: fs)
      (h : mc.next c.code (.run a) = some c'.code) : Aside mc job c (.run a) c'
  | signal {s : S} {c' : Config (Layer F L) M} (h : mc.next c.code (.signal s) = some c'.code) :
      Aside mc job c (.signal s) c'
  | job {a : A} {fs : List (Layer F L)} {l : L} {ls : List L} {n : M} (hc : c.stack = .aside (l :: ls) :: fs)
      (h : job l a c.mem = some n) : Aside mc job c (.run a) ⟨.aside ls :: fs, n⟩
  | back {a : A} {fs : List (Layer F L)} (hc : c.stack = .aside [] :: fs) : Aside mc job c (.run a) ⟨fs, c.mem⟩
  | dies {a : A} {fs : List (Layer F L)} {l : L} {ls : List L} (hc : c.stack = .aside (l :: ls) :: fs)
      (h : job l a c.mem = none) : Aside mc job c (.run a) ⟨[], c.mem⟩

section Asides
variable {mc : Machine F A S M} {jobs : F → A → M → F → List L} {job : L → A → M → Option M}
  {waits : F → Prop}

@[simp] theorem Config.code_lift (c : Config F M) : (c.lift : Config (Layer F L) M).code = c := by
  obtain ⟨fs, m⟩ := c
  have hfs : (fs.map (Layer.code (L := L))).filterMap Layer.code? = fs := by
    rw [List.filterMap_map]
    exact List.filterMap_some
  simp only [Config.code, Config.lift, hfs]

theorem Grounded.lift (c : Config F M) : Grounded waits (c.lift : Config (Layer F L) M).stack := by
  obtain ⟨fs, m⟩ := c
  induction fs with
  | nil => trivial
  | cons f fs ih => exact ih

theorem Grounded.code_ne {fs : List (Layer F L)} (h : Grounded waits fs) (hne : fs ≠ []) :
    fs.filterMap Layer.code? ≠ [] := by
  induction fs with
  | nil => exact absurd rfl hne
  | cons f fs ih =>
    cases f with
    | code f => exact List.cons_ne_nil _ _
    | aside ls =>
      obtain ⟨⟨g, gs, hfs, _⟩, hrest⟩ := h
      exact ih hrest (by rw [hfs]; exact List.cons_ne_nil _ _)

theorem step_code {f : F} {a : A} {m n : M} {k : Ctl F} (h : mc.step f a m = (k, n)) :
    (mc.withAsides jobs job).step (.code f) a m = match k with
      | .goto g => if (jobs f a m g).isEmpty then (.goto (.code g), n)
          else (.call (.code g) (.aside (jobs f a m g)), n)
      | .call g h => (.call (.code g) (.code h), n)
      | .ret => (.ret, n)
      | .halt => (.halt, n) := by
  simp only [withAsides, h]
  cases k <;> rfl

/-- One step: what it does without the jobs, and that no job is left alone. -/
theorem next_withAsides (hwaits : ∀ f a m g n, mc.step f a m = (.goto g, n) → jobs f a m g ≠ [] → waits g)
    {c c' : Config (Layer F L) M} {l : Label A S} (hg : Grounded waits c.stack)
    (h : (mc.withAsides jobs job).next c l = some c') : Aside mc job c l c' ∧ Grounded waits c'.stack := by
  obtain ⟨fs, m⟩ := c
  cases l with
  | signal s =>
    simp only [next] at h
    split_ifs at h with hblk
    cases h
    rw [Bool.or_eq_true, not_or, Bool.not_eq_true, Bool.not_eq_true, List.isEmpty_eq_false_iff] at hblk
    refine ⟨.signal ?_, hg⟩
    have hany : ((fs.filterMap Layer.code?).any fun f => mc.blocks f s) = false := by
      rw [List.any_eq_false]
      intro f hf
      obtain ⟨x, hx, hxf⟩ := List.mem_filterMap.mp hf
      cases x with
      | code g =>
        cases hxf
        exact (List.any_eq_false.mp hblk.2) _ hx
      | aside _ => cases hxf
    have hne := List.isEmpty_eq_false_iff.mpr (hg.code_ne hblk.1)
    simp only [next, Config.code, hne, hany]
    rfl
  | run a =>
    cases fs with
    | nil => cases h
    | cons f fs =>
      cases h
      cases f with
      | aside ls =>
        cases ls with
        | nil => exact ⟨.back rfl, hg.2⟩
        | cons l ls =>
          simp only [withAsides]
          cases hj : job l a m with
          | none => exact ⟨.dies rfl hj, trivial⟩
          | some n => exact ⟨.job rfl hj, hg⟩
      | code f =>
        have hstep : mc.next (Config.code ⟨.code f :: fs, m⟩) (.run a) =
            some ⟨(mc.step f a m).1.apply (fs.filterMap Layer.code?), (mc.step f a m).2⟩ := rfl
        have hwait := hwaits f a m
        simp only [withAsides]
        cases hk : mc.step f a m with
        | mk k n =>
          rw [hk] at hstep hwait
          cases k with
          | goto g =>
            simp only
            split_ifs with hjobs
            · exact ⟨.step rfl hstep, hg⟩
            · exact ⟨.step rfl hstep, ⟨g, fs, rfl, hwait g n rfl fun hn => hjobs (List.isEmpty_iff.mpr hn)⟩, hg⟩
          | call g x => exact ⟨.step rfl hstep, hg⟩
          | ret => exact ⟨.step rfl hstep, hg⟩
          | halt => exact ⟨.step rfl hstep, trivial⟩

theorem Reach.grounded (hwaits : ∀ f a m g n, mc.step f a m = (.goto g, n) → jobs f a m g ≠ [] → waits g)
    {ok : Config (Layer F L) M → Label A S → Prop} {c₀ c : Config (Layer F L) M}
    (h : (mc.withAsides jobs job).Reach ok c₀ c) (hg : Grounded waits c₀.stack) : Grounded waits c.stack :=
  h.keep (I := fun c => Grounded waits c.stack) hg fun _ _ _ _ hd _ hn => (next_withAsides hwaits hd hn).2

/-- What the steps and the jobs keep holds in every run. -/
theorem Reach.code_keep {ok : Config (Layer F L) M → Label A S → Prop} {c₀ c : Config (Layer F L) M}
    {I : Config F M → Prop} (h : (mc.withAsides jobs job).Reach ok c₀ c) (hg : Grounded (fun _ => True) c₀.stack)
    (h0 : I c₀.code) (hstep : ∀ d l d', I d.code → ok d l → mc.next d.code l = some d' → I d')
    (hjob : ∀ fs m l a n, I ⟨fs, m⟩ → job l a m = some n → I ⟨fs, n⟩) (hdies : ∀ fs m, I ⟨fs, m⟩ → I ⟨[], m⟩) :
    I c.code := by
  refine h.keep (I := fun c => I c.code) h0 fun d l d' hd hI hok hn => ?_
  have hground := hd.grounded (fun _ _ _ _ _ _ _ => trivial) hg
  cases (next_withAsides (fun _ _ _ _ _ _ _ => trivial) hground hn).1 with
  | step hc hs => exact hstep d _ _ hI hok hs
  | signal hs => exact hstep d _ _ hI hok hs
  | job hc hj =>
    have hd' : d.code = ⟨List.filterMap Layer.code? d.stack, d.mem⟩ := rfl
    rw [hd', hc] at hI
    exact hjob _ _ _ _ _ hI hj
  | back hc =>
    have hd' : d.code = ⟨List.filterMap Layer.code? d.stack, d.mem⟩ := rfl
    rw [hd', hc] at hI
    exact hI
  | dies hc hj => exact hdies _ _ hI

/-- When the jobs of a run leave the memory as it is, the run without them is one of the machine. -/
theorem Reach.code_reach {ok : Config (Layer F L) M → Label A S → Prop} {ok' : Config F M → Label A S → Prop}
    {c₀ c : Config (Layer F L) M} (h : (mc.withAsides jobs job).Reach ok c₀ c) (hg : Grounded waits c₀.stack)
    (hwaits : ∀ f a m g n, mc.step f a m = (.goto g, n) → jobs f a m g ≠ [] → waits g)
    (hrun : ∀ f fs m a, ok ⟨.code f :: fs, m⟩ (.run a) → ok' ⟨f :: fs.filterMap Layer.code?, m⟩ (.run a))
    (hsignal : ∀ d s, Grounded waits d.stack → ok d (.signal s) → ok' d.code (.signal s))
    (hidle : ∀ g fs m l ls a, mc.Reach ok' c₀.code ⟨g :: fs.filterMap Layer.code?, m⟩ → waits g →
      ok ⟨.aside (l :: ls) :: .code g :: fs, m⟩ (.run a) → job l a m = some m) :
    mc.Reach ok' c₀.code c.code := by
  refine h.keep (I := fun c => mc.Reach ok' c₀.code c.code) .refl fun d l d' hd hI hok hn => ?_
  have hground := hd.grounded hwaits hg
  obtain ⟨fs, m⟩ := d
  have hback : ∀ {ls gs}, fs = .aside ls :: gs → Config.code ⟨fs, m⟩ = Config.code ⟨gs, m⟩ := by
    rintro ls gs rfl
    rfl
  cases (next_withAsides hwaits hground hn).1 with
  | step hc hs =>
    have hc : fs = .code _ :: _ := hc
    subst hc
    exact hI.step (hrun _ _ _ _ hok) hs
  | signal hs => exact hI.step (hsignal _ _ hground hok) hs
  | job hc hj =>
    have hc : fs = .aside _ :: _ := hc
    subst hc
    obtain ⟨⟨g, gs, hgs, hw⟩, _⟩ := hground
    subst hgs
    have hsame := hidle _ _ _ _ _ _ hI hw hok
    have hj : job _ _ m = some _ := hj
    rw [hsame, Option.some.injEq] at hj
    subst hj
    exact hI
  | back hc => exact hback hc ▸ hI
  | dies hc hj =>
    have hc : fs = .aside _ :: _ := hc
    subst hc
    obtain ⟨⟨g, gs, hgs, hw⟩, _⟩ := hground
    subst hgs
    have hj : job _ _ m = none := hj
    rw [hidle _ _ _ _ _ _ hI hw hok] at hj
    cases hj

/-- A run of the machine is one of the machine with its jobs, when each job can leave the memory as
it is. -/
theorem Reach.lift {ok : Config F M → Label A S → Prop} {ok' : Config (Layer F L) M → Label A S → Prop}
    {c₀ c : Config F M} {e₀ : Config (Layer F L) M} (h : mc.Reach ok c₀ c)
    (hr : (mc.withAsides jobs job).Reach ok' e₀ c₀.lift) (hok : ∀ d l, ok d l → ok' d.lift l)
    (hjob : ∀ f fs m a g n, mc.Reach ok c₀ ⟨f :: fs, m⟩ → ok ⟨f :: fs, m⟩ (.run a) → mc.step f a m = (.goto g, n) →
      jobs f a m g ≠ [] → ∀ l ∈ jobs f a m g, ∃ b, job l b n = some n ∧
        ∀ ls gs, ok' ⟨.aside ls :: gs, n⟩ (.run b))
    (hback : ∀ fs m, ∃ b, ok' ⟨.aside [] :: fs, m⟩ (.run b)) : (mc.withAsides jobs job).Reach ok' e₀ c.lift := by
  -- the jobs of one step, one by one
  have hjobs : ∀ fs m ls, (∀ l ∈ ls, ∃ b, job l b m = some m ∧
      ∀ ls gs, ok' ⟨.aside ls :: gs, m⟩ (.run b)) → (mc.withAsides jobs job).Reach ok' e₀ ⟨.aside ls :: fs, m⟩ →
      (mc.withAsides jobs job).Reach ok' e₀ ⟨fs, m⟩ := by
    intro fs m ls hls hd
    induction ls with
    | nil =>
      obtain ⟨b, hb⟩ := hback fs m
      exact hd.step hb rfl
    | cons l ls ih =>
      obtain ⟨b, hb, hokb⟩ := hls l List.mem_cons_self
      refine ih (fun x hx => hls x (List.mem_cons_of_mem l hx)) (hd.step (hokb _ _) ?_)
      simp only [next, withAsides, hb]
      rfl
  refine h.keep (I := fun c => (mc.withAsides jobs job).Reach ok' e₀ c.lift) hr fun d l d' hd hI hokd hn => ?_
  obtain ⟨fs, m⟩ := d
  cases l with
  | signal s =>
    refine hI.step (hok _ _ hokd) ?_
    have hblk : ∀ gs : List F, (gs.map Layer.code).any (fun f => (mc.withAsides jobs job).blocks f s) =
        gs.any fun f => mc.blocks f s := fun gs => List.any_map
    simp only [next] at hn ⊢
    split_ifs at hn with hno
    cases hn
    simp only [Config.lift, hblk, List.isEmpty_map, hno]
    rfl
  | run a =>
    cases fs with
    | nil => cases hn
    | cons f fs =>
      cases hn
      have hnext : (mc.withAsides jobs job).Reach ok' e₀ ⟨((mc.withAsides jobs job).step (.code f) a m).1.apply
          (fs.map .code), ((mc.withAsides jobs job).step (.code f) a m).2⟩ := hI.step (hok _ _ hokd) rfl
      have hone := hjob f fs m a
      cases hk : mc.step f a m with
      | mk k n =>
        rw [step_code hk] at hnext
        cases k with
        | goto g =>
          by_cases hj : (jobs f a m g).isEmpty
          · simp only [if_pos hj] at hnext
            exact hnext
          · simp only [if_neg hj] at hnext
            exact hjobs _ _ _ (hone g n hd hokd hk fun hn => hj (List.isEmpty_iff.mpr hn)) hnext
        | call g x => exact hnext
        | ret => exact hnext
        | halt => exact hnext

theorem withAsides_stays {P : F → Prop} (hstays : ∀ f a m, P f → (mc.step f a m).1.Stays P)
    (hjobs : ∀ f a m g, P f → jobs f a m g = []) (x : Layer F L) (a : A) (m : M) (hx : ∃ f, x = .code f ∧ P f) :
    ((mc.withAsides jobs job).step x a m).1.Stays fun y => ∃ f, y = .code f ∧ P f := by
  obtain ⟨f, rfl, hf⟩ := hx
  have hs := hstays f a m hf
  cases hk : mc.step f a m with
  | mk k n =>
    rw [hk] at hs
    rw [step_code hk]
    cases k with
    | goto g =>
      simp only [hjobs f a m g hf, List.isEmpty_nil, if_true]
      exact ⟨g, rfl, hs⟩
    | call g h => exact hs.elim
    | ret => trivial
    | halt => trivial

theorem withAsides_new {P : F → Prop} (hnew : ∀ f a m, ¬ P f → ∀ g ∈ (mc.step f a m).1.frames, ¬ P g)
    (x : Layer F L) (a : A) (m : M) (hx : ¬ ∃ f, x = .code f ∧ P f) :
    ∀ y ∈ ((mc.withAsides jobs job).step x a m).1.frames, ¬ ∃ f, y = .code f ∧ P f := by
  rintro y hy ⟨g, rfl, hg⟩
  cases x with
  | aside ls =>
    cases ls with
    | nil => cases hy
    | cons l ls =>
      simp only [withAsides] at hy
      cases hj : job l a m <;> rw [hj] at hy <;> simp [Ctl.frames] at hy
  | code f =>
    have hf : ¬ P f := fun hf => hx ⟨f, rfl, hf⟩
    have hn := hnew f a m hf g
    cases hk : mc.step f a m with
    | mk k n =>
      rw [hk] at hn
      rw [step_code hk] at hy
      refine hn ?_ hg
      cases k with
      | goto h =>
        simp only at hy
        split_ifs at hy <;> simpa [Ctl.frames] using hy
      | call h h' => simpa [Ctl.frames] using hy
      | ret => cases hy
      | halt => cases hy

/-- Frames that leave nothing aside run on their own as they do without jobs. -/
theorem lockstep_code {P : F → Prop} (hstays : ∀ f a m, P f → (mc.step f a m).1.Stays P)
    (hjobs : ∀ f a m g, P f → jobs f a m g = []) (env : Layer F L → A) :
    Lockstep ((mc.withAsides jobs job).soloBody env) (mc.soloBody fun g => env (.code g))
      (fun s t => P t.1 ∧ s = (.code t.1, t.2)) Eq := by
  rintro s ⟨g, n⟩ ⟨hg, rfl⟩
  have hs := hstays g (env (.code g)) n hg
  cases hk : mc.step g (env (.code g)) n with
  | mk k q =>
    rw [hk] at hs
    simp only [soloBody, step_code hk, hk, hjobs _ _ _ _ hg, List.isEmpty_nil, if_true]
    cases k with
    | goto x => exact Or.inl ⟨_, _, rfl, rfl, hs, rfl⟩
    | call x y => exact hs.elim
    | ret => exact Or.inr ⟨_, _, rfl, rfl, rfl⟩
    | halt => exact Or.inr ⟨_, _, rfl, rfl, rfl⟩

theorem leaves_code {P : F → Prop} (hstays : ∀ f a m, P f → (mc.step f a m).1.Stays P)
    (hjobs : ∀ f a m g, P f → jobs f a m g = []) {env : Layer F L → A} {f : F} (hf : P f) {m : M} {r : Bool × M} :
    Leaves ((mc.withAsides jobs job).soloBody env) (.code f, m) r ↔
      Leaves (mc.soloBody fun g => env (.code g)) (f, m) r := by
  have hlock : Lockstep ((mc.withAsides jobs job).soloBody env) _ _ _ := lockstep_code hstays hjobs env
  have hstart : P (f, m).1 ∧ ((Layer.code f : Layer F L), m) = (.code (f, m).1, (f, m).2) := ⟨hf, rfl⟩
  constructor
  · intro h
    obtain ⟨q, hq, he⟩ := hlock.leaves (t := (f, m)) hstart h
    exact he ▸ hq
  · intro h
    obtain ⟨q, hq, he⟩ := hlock.symm.leaves (s := (f, m)) hstart h
    exact he ▸ hq

theorem goes_code {P : F → Prop} (hstays : ∀ f a m, P f → (mc.step f a m).1.Stays P)
    (hjobs : ∀ f a m g, P f → jobs f a m g = []) {env : Layer F L → A} {f g : F} (hf : P f) {m n : M} :
    Goes ((mc.withAsides jobs job).soloBody env) (.code f, m) (.code g, n) ↔
      Goes (mc.soloBody fun g => env (.code g)) (f, m) (g, n) := by
  have hlock : Lockstep ((mc.withAsides jobs job).soloBody env) _ _ _ := lockstep_code hstays hjobs env
  have hstart : P (f, m).1 ∧ ((Layer.code f : Layer F L), m) = (.code (f, m).1, (f, m).2) := ⟨hf, rfl⟩
  constructor
  · intro h
    obtain ⟨⟨x, q⟩, hq, _, he⟩ := hlock.goes (t := (f, m)) hstart h
    cases he
    exact hq
  · intro h
    obtain ⟨⟨x, q⟩, hq, _, he⟩ := hlock.symm.goes (s := (f, m)) hstart h
    cases he
    exact hq

end Asides

end Machine

end TimeTask.Lib
