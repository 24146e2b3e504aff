import TimeTask.Lib.Interrupt

/-! A process that rests between signals: they come while the frame at rest is alone on the stack,
so that each handler runs undisturbed. -/
namespace TimeTask.Lib.Machine

variable {F A S M : Type*} {mc : Machine F A S M}

/-- Answers by `env`, and signals only at rest. -/
def Served (env : F → A) (rest : F) (c : Config F M) : Label A S → Prop
  | .run a => ∀ f ∈ c.stack.head?, a = env f
  | .signal _ => c.stack = [rest]

section Solo
variable {ok : Config F M → Label A S → Prop} {env : F → A} {c₀ : Config F M} {f g : F} {m n : M} {fs : List F}

/-- Where a frame comes on its own, it comes on top of any stack. -/
theorem Reach.goes (hr : mc.Reach ok c₀ ⟨f :: fs, m⟩) (hok : ∀ g n, ok ⟨g :: fs, n⟩ (.run (env g)))
    (h : Goes (mc.soloBody env) (f, m) (g, n)) : mc.Reach ok c₀ ⟨g :: fs, n⟩ := by
  refine h.keep (I := fun s => mc.Reach ok c₀ ⟨s.1 :: fs, s.2⟩) hr fun s t hs hst => ?_
  have hnext : mc.next ⟨s.1 :: fs, s.2⟩ (.run (env s.1)) =
      some ⟨(mc.step s.1 (env s.1) s.2).1.apply fs, (mc.step s.1 (env s.1) s.2).2⟩ := rfl
  have hstep := hs.step (hok s.1 s.2) hnext
  simp only [soloBody] at hst
  cases hk : mc.step s.1 (env s.1) s.2 with
  | mk k q =>
    rw [hk] at hst hstep
    cases k with
    | goto x =>
      cases hst
      exact hstep
    | _ => cases hst

theorem Reach.returns (hr : mc.Reach ok c₀ ⟨f :: fs, m⟩) (hok : ∀ g n, ok ⟨g :: fs, n⟩ (.run (env g)))
    (h : Leaves (mc.soloBody env) (f, m) (true, n)) : mc.Reach ok c₀ ⟨fs, n⟩ := by
  obtain ⟨⟨g, q⟩, hgo, hlast⟩ := h.last
  have hstep := (hr.goes hok hgo).step (hok g q) rfl
  simp only [soloBody] at hlast
  cases hk : mc.step g (env g) q with
  | mk k p =>
    rw [hk] at hlast hstep
    cases k with
    | ret =>
      cases hlast
      exact hstep
    | _ => cases hlast

/-- Frames that call nothing leave with `false` only when the process ends. -/
theorem Reach.ends {top : F → Prop} (hr : mc.Reach ok c₀ ⟨f :: fs, m⟩)
    (hok : ∀ g n, ok ⟨g :: fs, n⟩ (.run (env g))) (htop : top f)
    (hstays : ∀ g a q, top g → (mc.step g a q).1.Stays top)
    (h : Leaves (mc.soloBody env) (f, m) (false, n)) : mc.Reach ok c₀ ⟨[], n⟩ := by
  obtain ⟨⟨g, q⟩, hgo, hlast⟩ := h.last
  have hg : top g := by
    refine hgo.keep (I := fun s => top s.1) htop fun s t hs hst => ?_
    have hst' := hstays s.1 (env s.1) s.2 hs
    simp only [soloBody] at hst
    cases hk : mc.step s.1 (env s.1) s.2 with
    | mk k p =>
      rw [hk] at hst hst'
      cases k with
      | goto x =>
        cases hst
        exact hst'
      | _ => cases hst
  have hno := hstays g (env g) q hg
  have hstep := (hr.goes hok hgo).step (hok g q) rfl
  simp only [soloBody] at hlast
  cases hk : mc.step g (env g) q with
  | mk k p =>
    rw [hk] at hlast hstep hno
    cases k with
    | halt =>
      cases hlast
      exact hstep
    | call x y => exact hno.elim
    | _ => cases hlast

end Solo

/-- At rest nothing happens; each handler, entered in `J`, calls nothing and returns to `J` or ends
the process in `E`. -/
structure Serves (mc : Machine F A S M) (env : F → A) (rest : F) (top : F → Prop) (J E : M → Prop) : Prop where
  idle : ∀ m, mc.step rest (env rest) m = (.goto rest, m)
  enter : ∀ s m, top (mc.enter s m).1
  stays : ∀ f a m, top f → (mc.step f a m).1.Stays top
  serve : ∀ s m, J m → ∃ b n, Leaves (mc.soloBody env) (mc.enter s m) (b, n) ∧ if b then J n else E n

section Serves
variable {env : F → A} {rest : F} {top : F → Prop} {J E : M → Prop}

/-- Nothing comes back to rest in another memory. -/
theorem Serves.still (h : mc.Serves env rest top J E) {m n : M} (hg : Goes (mc.soloBody env) (rest, m) (rest, n)) :
    n = m := by
  have hs : (rest, n) = (rest, m) := hg.keep (I := fun s => s = (rest, m)) rfl fun a b ha hb => by
    subst ha
    simp only [soloBody, h.idle] at hb
    cases hb
    rfl
  exact congrArg Prod.snd hs

/-- The process is on its way to rest, or it rests and `J` holds, or a handler is on its way back
to `J` or to the end, or the process has ended and `E` holds. -/
theorem Serves.reach (h : mc.Serves env rest top J E) {f₀ : F} {m₀ m₁ : M}
    (hgo : Goes (mc.soloBody env) (f₀, m₀) (rest, m₁)) (h1 : J m₁) {c : Config F M}
    (hr : mc.Reach (Served env rest) ⟨[f₀], m₀⟩ c) :
    (∃ f, c.stack = [f] ∧ f ≠ rest ∧ Goes (mc.soloBody env) (f, c.mem) (rest, m₁)) ∨
      (c.stack = [rest] ∧ J c.mem) ∨
      (∃ f, c.stack = [f, rest] ∧ top f ∧
        ∃ b n, Leaves (mc.soloBody env) (f, c.mem) (b, n) ∧ if b then J n else E n) ∨
      (c.stack = [] ∧ E c.mem) := by
  have hon : ∀ f m, Goes (mc.soloBody env) (f, m) (rest, m₁) →
      (∃ g, [f] = [g] ∧ g ≠ rest ∧ Goes (mc.soloBody env) (g, m) (rest, m₁)) ∨ ([f] = [rest] ∧ J m) := by
    intro f m hg
    by_cases hf : f = rest
    · subst hf
      exact Or.inr ⟨rfl, h.still hg ▸ h1⟩
    · exact Or.inl ⟨f, rfl, hf, hg⟩
  refine hr.keep (I := fun c => (∃ f, c.stack = [f] ∧ f ≠ rest ∧ Goes (mc.soloBody env) (f, c.mem) (rest, m₁)) ∨
    (c.stack = [rest] ∧ J c.mem) ∨
    (∃ f, c.stack = [f, rest] ∧ top f ∧
      ∃ b n, Leaves (mc.soloBody env) (f, c.mem) (b, n) ∧ if b then J n else E n) ∨
    (c.stack = [] ∧ E c.mem)) ((hon f₀ m₀ hgo).imp_right Or.inl) ?_
  rintro ⟨fs, m⟩ l c' _ hI hok hn
  cases l with
  | signal s =>
    -- the signal finds the process at rest
    have hrest : fs = [rest] := hok
    subst hrest
    have hJ : J m := by
      obtain ⟨f, he, hf, _⟩ | ⟨_, hJ⟩ | ⟨f, he, _⟩ | ⟨he, _⟩ := hI
      · exact absurd (List.singleton_inj.mp he).symm hf
      · exact hJ
      · cases he
      · cases he
    simp only [next] at hn
    split_ifs at hn
    cases hn
    exact Or.inr (Or.inr (Or.inl ⟨_, rfl, h.enter s m, h.serve s m hJ⟩))
  | run a =>
    cases fs with
    | nil => cases hn
    | cons f fs =>
      have ha : a = env f := hok f rfl
      subst ha
      cases hn
      obtain ⟨g, he, hg, hgo⟩ | ⟨he, hJ⟩ | ⟨g, he, ht, b, n, hl, hb⟩ | ⟨he, _⟩ := hI
      · cases he
        -- one more step towards rest
        cases hgo.cases_head with
        | inl heq => exact absurd (congrArg Prod.fst heq) hg
        | inr hstep =>
          obtain ⟨⟨x, q⟩, hx, hgo⟩ := hstep
          simp only [soloBody] at hx
          cases hk : mc.step f (env f) m with
          | mk k p =>
            rw [hk] at hx
            cases k with
            | goto y =>
              cases hx
              exact (hon x q hgo).imp_right Or.inl
            | _ => cases hx
      · cases he
        refine Or.inr (Or.inl ?_)
        simp only [h.idle m]
        exact ⟨rfl, hJ⟩
      · cases he
        -- one step of the handler brings it closer to the same end
        have hs := h.stays f (env f) m ht
        have hend : ∀ b' q, mc.soloBody env (f, m) = .leave (b', q) → b' = b ∧ q = n := by
          intro b' q hk
          have hu := Leaves.unique (Leaves.now hk) hl
          exact ⟨congrArg Prod.fst hu, congrArg Prod.snd hu⟩
        cases hk : mc.step f (env f) m with
        | mk k q =>
          rw [hk] at hs
          cases k with
          | goto g =>
            refine Or.inr (Or.inr (Or.inl ⟨g, rfl, hs, b, n, hl.after (Goes.one ?_), hb⟩))
            simp only [soloBody, hk]
          | call g g' => exact hs.elim
          | ret =>
            obtain ⟨hbt, hqn⟩ := hend true q (by simp only [soloBody, hk])
            subst hbt
            subst hqn
            exact Or.inr (Or.inl ⟨rfl, hb⟩)
          | halt =>
            obtain ⟨hbf, hqn⟩ := hend false q (by simp only [soloBody, hk])
            subst hbf
            subst hqn
            exact Or.inr (Or.inr (Or.inr ⟨rfl, by simpa using hb⟩))
      · cases he

end Serves

end TimeTask.Lib.Machine
