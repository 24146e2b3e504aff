import Mathlib.Data.List.Nodup

/-! Components that take turns, round after round, each with a state of its own. -/
namespace TimeTask.Lib

variable {A S E : Type*}

/-- The state of one component after `n` rounds; in round `i` it goes by `f i`. -/
def after (f : Nat → S → List E × S) (s : S) : Nat → S
  | 0 => s
  | n + 1 => (f n (after f s n)).2

/-- What it shows in round `i`. -/
def shown (f : Nat → S → List E × S) (s : S) (i : Nat) : List E := (f i (after f s i)).1

/-- What `n` rounds of all components show. -/
def rounds (f : A → Nat → S → List E × S) (s : A → S) (l : List A) (n : Nat) : List E :=
  (List.range n).flatMap fun i => l.flatMap fun a => shown (f a) (s a) i

theorem rounds_succ (f : A → Nat → S → List E × S) (s : A → S) (l : List A) (n : Nat) :
    rounds f s l (n + 1) = rounds f s l n ++ l.flatMap fun a => shown (f a) (s a) n := by
  simp [rounds, List.range_succ]

theorem after_congr {f g : Nat → S → List E × S} (h : ∀ i s, f i s = g i s) (s : S) (n : Nat) :
    after f s n = after g s n := by
  induction n with
  | zero => rfl
  | succ n ih => rw [after, after, ih, h]

theorem shown_congr {f g : Nat → S → List E × S} (h : ∀ i s, f i s = g i s) (s : S) (i : Nat) :
    shown f s i = shown g s i := by
  rw [shown, shown, after_congr h, h]

theorem after_map {f : Nat → S → List E × S} {g : S → S}
    (h : ∀ i s, f i (g s) = ((f i s).1, g (f i s).2)) (s : S) (n : Nat) :
    after f (g s) n = g (after f s n) := by
  induction n with
  | zero => rfl
  | succ n ih => rw [after, after, ih, h]

theorem shown_map {f : Nat → S → List E × S} {g : S → S}
    (h : ∀ i s, f i (g s) = ((f i s).1, g (f i s).2)) (s : S) (i : Nat) :
    shown f (g s) i = shown f s i := by
  rw [shown, shown, after_map h, h]

theorem after_silent {f : Nat → S → List E × S} {s : S} {t : Nat → S} (h0 : t 0 = s) {n : Nat}
    (h : ∀ i < n, f i (t i) = ([], t (i + 1))) : after f s n = t n ∧ ∀ i < n, shown f s i = [] := by
  induction n with
  | zero => exact ⟨h0.symm, fun i hi => absurd hi (Nat.not_lt_zero i)⟩
  | succ n ih =>
    obtain ⟨hn, hs⟩ := ih fun i hi => h i (Nat.lt_succ_of_lt hi)
    have hlast := h n (Nat.lt_succ_self n)
    refine ⟨by rw [after, hn, hlast], fun i hi => ?_⟩
    cases Nat.lt_succ_iff_lt_or_eq.mp hi with
    | inl hi => exact hs i hi
    | inr he => rw [he, shown, hn, hlast]

/-- Of all that is shown, what belongs to one component is what that component shows on its own. -/
theorem filter_rounds {f : A → Nat → S → List E × S} {own : A → E → Bool}
    (hown : ∀ a b i s, ∀ e ∈ (f b i s).1, own a e = true ↔ b = a) (s : A → S) {l : List A} (hn : l.Nodup)
    {a : A} (ha : a ∈ l) (n : Nat) :
    (rounds f s l n).filter (own a) = (List.range n).flatMap fun i => shown (f a) (s a) i := by
  rw [rounds, List.filter_flatMap]
  refine List.flatMap_congr fun i _ => ?_
  obtain ⟨k, r, he⟩ := List.append_of_mem ha
  subst he
  have hall : (shown (f a) (s a) i).filter (own a) = shown (f a) (s a) i :=
    List.filter_eq_self.mpr fun e he => (hown a a i _ e he).mpr rfl
  have hnone : ∀ xs : List A, a ∉ xs → (xs.flatMap fun b => shown (f b) (s b) i).filter (own a) = [] := by
    intro xs hx
    rw [List.filter_eq_nil_iff]
    intro e he hae
    obtain ⟨b, hb, heb⟩ := List.mem_flatMap.mp he
    exact hx ((hown a b i _ e heb).mp hae ▸ hb)
  have hnot := List.nodup_middle.mp hn
  rw [List.nodup_cons, List.mem_append, not_or] at hnot
  rw [List.flatMap_append, List.flatMap_cons, List.filter_append, List.filter_append,
    hnone k hnot.1.1, hnone r hnot.1.2, hall, List.nil_append, List.append_nil]

end TimeTask.Lib
