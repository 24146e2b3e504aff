import TimeTask.Lib.Heap

/-! Linked lists with their contents: a walk over a heap that shows one item in each cell. -/
namespace TimeTask.Lib
variable {C A : Type*}

/-- Release the cells of a list one after the other. -/
def Heap.freeAll (h : Heap C) (l : List Nat) : Heap C := l.foldl Heap.free h

theorem Heap.freeAll_append (h : Heap C) (l k : List Nat) :
    h.freeAll (l ++ k) = (h.freeAll l).freeAll k := List.foldl_append

theorem Heap.freeAll_brk (h : Heap C) (l : List Nat) : (h.freeAll l).brk = h.brk := by
  induction l generalizing h with
  | nil => rfl
  | cons a l ih => exact ih (h.free a)

theorem Heap.freeAll_cell (h : Heap C) (l : List Nat) (a : Nat) :
    (h.freeAll l).cell a = if a ∈ l then none else h.cell a := by
  induction l generalizing h with
  | nil => rfl
  | cons b l ih =>
    have hrec : (h.freeAll (b :: l)).cell a = if a ∈ l then none else (h.free b).cell a := ih (h.free b)
    rw [hrec]
    by_cases hb : a = b
    · subst hb
      simp
    · simp [hb, h.cell_free_ne hb]

theorem Heap.modify_eq_self (h : Heap C) {a : Nat} {f : C → C} (hf : (h.cell a).map f = h.cell a) :
    h.modify a f = h := by
  have hcell : (h.modify a f).cell = h.cell := by
    funext x
    by_cases hx : x = a
    · subst hx
      rw [h.cell_modify_self, hf]
    · exact h.cell_modify_ne f hx
  cases h with
  | mk cell brk fresh =>
    simp only [Heap.modify, Heap.mk.injEq, and_true] at hcell ⊢
    exact hcell

/-- From the pointer `p` the links visit the cells of `l`, each of which shows its item, and
end in the pointer `q`. `shows c x r` says that the cell `c` holds `x` and the link `r`. -/
def Spine (cell : Nat → Option C) (shows : C → A → Option Nat → Prop) :
    Option Nat → List (Nat × A) → Option Nat → Prop
  | p, [], q => p = q
  | p, x :: l, q => p = some x.1 ∧ ∃ c r, cell x.1 = some c ∧ shows c x.2 r ∧ Spine cell shows r l q

variable {cell cell' : Nat → Option C} {shows shows' : C → A → Option Nat → Prop}

theorem spine_append {p q : Option Nat} {l k : List (Nat × A)} :
    Spine cell shows p (l ++ k) q ↔ ∃ r, Spine cell shows p l r ∧ Spine cell shows r k q := by
  induction l generalizing p with
  | nil => simp [Spine]
  | cons x l ih =>
    constructor
    · intro h
      obtain ⟨hp, c, s, hc, hs, hl⟩ := h
      obtain ⟨r, hr, hk⟩ := ih.mp hl
      exact ⟨r, ⟨hp, c, s, hc, hs, hr⟩, hk⟩
    · intro h
      obtain ⟨r, ⟨hp, c, s, hc, hs, hl⟩, hk⟩ := h
      exact ⟨hp, c, s, hc, hs, ih.mpr ⟨r, hl, hk⟩⟩

theorem spine_mono {p q : Option Nat} {l : List (Nat × A)}
    (h : ∀ x ∈ l, ∀ c r, cell x.1 = some c → shows c x.2 r → ∃ c', cell' x.1 = some c' ∧ shows' c' x.2 r)
    (hl : Spine cell shows p l q) : Spine cell' shows' p l q := by
  induction l generalizing p with
  | nil => exact hl
  | cons x l ih =>
    obtain ⟨hp, c, r, hc, hs, hl⟩ := hl
    obtain ⟨c', hc', hs'⟩ := h x List.mem_cons_self c r hc hs
    exact ⟨hp, c', r, hc', hs', ih (fun y hy => h y (List.mem_cons_of_mem x hy)) hl⟩

theorem spine_congr {p q : Option Nat} {l : List (Nat × A)} (h : ∀ x ∈ l, cell' x.1 = cell x.1)
    (hl : Spine cell shows p l q) : Spine cell' shows p l q := by
  refine spine_mono ?_ hl
  intro x hx c r hc hs
  exact ⟨c, (h x hx).trans hc, hs⟩

theorem spine_snoc {p q r : Option Nat} {l : List (Nat × A)} {t n : Nat} {x y : A} {c d : C}
    (h : Spine cell shows p (l ++ [(t, x)]) q) (hsame : ∀ z ∈ l, cell' z.1 = cell z.1)
    (ht : cell' t = some c) (hx : shows c x (some n)) (hn : cell' n = some d) (hy : shows d y r) :
    Spine cell' shows p (l ++ [(t, x)] ++ [(n, y)]) r := by
  obtain ⟨s, hl, hs⟩ := spine_append.mp h
  rw [List.append_assoc]
  refine spine_append.mpr ⟨s, spine_congr hsame hl, hs.1, c, some n, ht, hx, rfl, d, r, hn, hy, rfl⟩

theorem spine_live {p q : Option Nat} {l : List (Nat × A)} (h : Spine cell shows p l q) :
    ∀ x ∈ l, ∃ c r, cell x.1 = some c ∧ shows c x.2 r := by
  induction l generalizing p with
  | nil => simp
  | cons x l ih =>
    obtain ⟨_, c, r, hc, hs, hl⟩ := h
    intro y hy
    cases List.mem_cons.mp hy with
    | inl he =>
      subst he
      exact ⟨c, r, hc, hs⟩
    | inr hy => exact ih hl y hy

theorem spine_seg (link : C → Option Nat) (hlink : ∀ c x r, shows c x r → link c = r)
    {p q : Option Nat} {l : List (Nat × A)} (h : Spine cell shows p l q) :
    Seg (fun a => (cell a).map link) p (l.map Prod.fst) q := by
  induction l generalizing p with
  | nil => exact h
  | cons x l ih =>
    obtain ⟨hp, c, r, hc, hs, hl⟩ := h
    refine ⟨hp, r, ?_, ih hl⟩
    simp [hc, hlink c x.2 r hs]

theorem Heap.spine_length_le (h : Heap C) (link : C → Option Nat)
    (hlink : ∀ c x r, shows c x r → link c = r) {p : Option Nat} {l : List (Nat × A)}
    (hl : Spine h.cell shows p l none) : l.length ≤ h.brk := by
  have hs : Chain (h.next link) p (l.map Prod.fst) := spine_seg link hlink hl
  simpa using h.chain_length_le link hs

end TimeTask.Lib
