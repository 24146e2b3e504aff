import Mathlib.Logic.Relation

/-! Loops of imperative programs as step functions. The fuel counts passes, and
every result below says that enough fuel gives the result. -/
namespace TimeTask.Lib

/-- What one pass of a loop body does: go round again or leave the loop. -/
inductive Pass (S R : Type*) where
  | again (s : S)
  | leave (r : R)
deriving DecidableEq, Repr

section Loops
variable {S R : Type*} (body : S → Pass S R)

/-- At most `n` passes; `none` while the loop still runs. -/
def loop : Nat → S → Option R
  | 0, _ => none
  | n + 1, s =>
    match body s with
    | .again s => loop n s
    | .leave r => some r

/-- The loop leaves with `r`. -/
def Leaves (s : S) (r : R) : Prop := ∃ n, loop body n s = some r

/-- The loop comes from one state to another without leaving. -/
def Goes : S → S → Prop := Relation.ReflTransGen fun s t => body s = .again t

variable {body}

theorem loop_mono {n k : Nat} {s : S} {r : R} (h : loop body n s = some r) (hk : n ≤ k) :
    loop body k s = some r := by
  induction n generalizing s k with
  | zero => simp [loop] at h
  | succ n ih =>
    obtain ⟨k, rfl⟩ : ∃ j, k = j + 1 := ⟨k - 1, by omega⟩
    simp only [loop] at h ⊢
    cases hb : body s with
    | again t =>
      rw [hb] at h
      exact ih h (by omega)
    | leave q =>
      rw [hb] at h
      exact h

theorem Leaves.unique {s : S} {r q : R} (hr : Leaves body s r) (hq : Leaves body s q) : r = q := by
  obtain ⟨n, hn⟩ := hr
  obtain ⟨k, hk⟩ := hq
  have h₁ := loop_mono hn (Nat.le_max_left n k)
  have h₂ := loop_mono hk (Nat.le_max_right n k)
  rw [h₁] at h₂
  exact Option.some.inj h₂

theorem Leaves.now {s : S} {r : R} (h : body s = .leave r) : Leaves body s r :=
  ⟨1, by simp [loop, h]⟩

theorem Leaves.step {s t : S} {r : R} (h : body s = .again t) (ht : Leaves body t r) :
    Leaves body s r := by
  obtain ⟨n, hn⟩ := ht
  exact ⟨n + 1, by simpa [loop, h] using hn⟩

theorem Leaves.of_goes {s t : S} {r : R} (h : Goes body s t) (ht : Leaves body t r) :
    Leaves body s r := by
  induction h using Relation.ReflTransGen.head_induction_on with
  | refl => exact ht
  | head hs _ ih => exact Leaves.step hs ih

theorem Goes.one {s t : S} (h : body s = .again t) : Goes body s t := Relation.ReflTransGen.single h

theorem Goes.trans {s t u : S} (h : Goes body s t) (k : Goes body t u) : Goes body s u :=
  Relation.ReflTransGen.trans h k

theorem Goes.refl (s : S) : Goes body s s := Relation.ReflTransGen.refl

/-- What every pass keeps holds wherever the loop comes. -/
theorem Goes.keep {I : S → Prop} {s t : S} (h : Goes body s t) (hs : I s)
    (hstep : ∀ a b, I a → body a = .again b → I b) : I t := by
  induction h with
  | refl => exact hs
  | tail _ hb ih => exact hstep _ _ ih hb

theorem Leaves.after {s t : S} {r : R} (h : Leaves body s r) (hg : Goes body s t) : Leaves body t r := by
  induction hg with
  | refl => exact h
  | tail _ hb ih =>
    obtain ⟨n, hn⟩ := ih
    cases n with
    | zero => simp [loop] at hn
    | succ n => exact ⟨n, by simpa [loop, hb] using hn⟩

theorem Leaves.last {s : S} {r : R} (h : Leaves body s r) : ∃ t, Goes body s t ∧ body t = .leave r := by
  obtain ⟨n, hn⟩ := h
  induction n generalizing s with
  | zero => simp [loop] at hn
  | succ n ih =>
    simp only [loop] at hn
    cases hb : body s with
    | again t =>
      rw [hb] at hn
      obtain ⟨u, hu, hl⟩ := ih hn
      exact ⟨u, (Goes.one hb).trans hu, hl⟩
    | leave q =>
      rw [hb] at hn
      exact ⟨s, Goes.refl s, hb.trans (congrArg Pass.leave (Option.some.inj hn))⟩

/-- A loop that always goes on from the states of `I` never leaves one of them. -/
theorem not_leaves {I : S → Prop} (h : ∀ s, I s → ∃ t, body s = .again t ∧ I t) {s : S} (hs : I s)
    (r : R) : ¬ Leaves body s r := by
  intro hl
  obtain ⟨n, hn⟩ := hl
  induction n generalizing s with
  | zero => simp [loop] at hn
  | succ n ih =>
    obtain ⟨t, ht, hI⟩ := h s hs
    rw [loop, ht] at hn
    exact ih hI hn

end Loops

section Simulation
variable {S R T Q : Type*}

/-- Two bodies in lockstep: related states go on to related states, or both loops leave. -/
def Lockstep (body : S → Pass S R) (step : T → Pass T Q) (rel : S → T → Prop) (out : R → Q → Prop) :
    Prop :=
  ∀ s t, rel s t →
    (∃ s' t', body s = .again s' ∧ step t = .again t' ∧ rel s' t') ∨
      ∃ r q, body s = .leave r ∧ step t = .leave q ∧ out r q

theorem Lockstep.symm {body : S → Pass S R} {step : T → Pass T Q} {rel : S → T → Prop}
    {out : R → Q → Prop} (h : Lockstep body step rel out) :
    Lockstep step body (fun t s => rel s t) fun q r => out r q := by
  intro t s hst
  obtain ⟨s', t', hs, ht, hr⟩ | ⟨r, q, hs, ht, ho⟩ := h s t hst
  · exact .inl ⟨t', s', ht, hs, hr⟩
  · exact .inr ⟨q, r, ht, hs, ho⟩

/-- The second loop leaves with what the first one does. -/
theorem Lockstep.leaves {body : S → Pass S R} {step : T → Pass T Q} {rel : S → T → Prop}
    {out : R → Q → Prop} (h : Lockstep body step rel out) {s : S} {t : T} (hst : rel s t) {r : R}
    (hr : Leaves body s r) : ∃ q, Leaves step t q ∧ out r q := by
  obtain ⟨n, hn⟩ := hr
  induction n generalizing s t with
  | zero => simp [loop] at hn
  | succ n ih =>
    rw [loop] at hn
    obtain ⟨s', t', hs, ht, hr⟩ | ⟨r', q, hs, ht, ho⟩ := h s t hst
    · rw [hs] at hn
      obtain ⟨q, hq, ho⟩ := ih hr hn
      exact ⟨q, Leaves.step ht hq, ho⟩
    · rw [hs] at hn
      cases hn
      exact ⟨q, Leaves.now ht, ho⟩

theorem Lockstep.goes {body : S → Pass S R} {step : T → Pass T Q} {rel : S → T → Prop}
    {out : R → Q → Prop} (h : Lockstep body step rel out) {s s' : S} {t : T} (hst : rel s t)
    (hg : Goes body s s') : ∃ t', Goes step t t' ∧ rel s' t' := by
  refine hg.keep (I := fun s => ∃ t', Goes step t t' ∧ rel s t') ⟨t, Goes.refl t, hst⟩ ?_
  rintro a b ⟨u, hu, hau⟩ hb
  obtain ⟨a', u', ha, hu', hr⟩ | ⟨r, q, ha, _⟩ := h a u hau
  · rw [hb] at ha
    cases ha
    exact ⟨u', hu.trans (Goes.one hu'), hr⟩
  · rw [hb] at ha
    cases ha

end Simulation

end TimeTask.Lib
