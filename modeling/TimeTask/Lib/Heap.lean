import Mathlib.Data.List.Nodup
import Mathlib.Data.List.Perm.Subperm

/-! Cells behind fresh identities and the singly linked lists threaded through
them. A released identity is never handed out again, so "released" is a fact
about the heap and not about the history. No program is named here. -/
namespace TimeTask.Lib

/-- A finite store of cells. Identities from `brk` on were never handed out. -/
structure Heap (C : Type*) where
  cell : Nat → Option C
  brk : Nat
  fresh : ∀ a, brk ≤ a → cell a = none

namespace Heap
variable {C : Type*}

def empty : Heap C := ⟨fun _ => none, 0, fun _ _ => rfl⟩

def alloc (h : Heap C) (c : C) : Heap C where
  cell x := if x = h.brk then some c else h.cell x
  brk := h.brk + 1
  fresh a ha := by
    have hn : a ≠ h.brk := by omega
    simpa [hn] using h.fresh a (by omega)

/-- Rewrite a live cell; on a released identity nothing is stored. -/
def modify (h : Heap C) (a : Nat) (f : C → C) : Heap C where
  cell x := if x = a then (h.cell a).map f else h.cell x
  brk := h.brk
  fresh x hx := by
    by_cases he : x = a
    · subst he
      simp [h.fresh x hx]
    · simpa [he] using h.fresh x hx

def free (h : Heap C) (a : Nat) : Heap C where
  cell x := if x = a then none else h.cell x
  brk := h.brk
  fresh x hx := by simp [h.fresh x hx]

@[simp] theorem brk_empty : (empty : Heap C).brk = 0 := rfl
@[simp] theorem brk_alloc (h : Heap C) (c : C) : (h.alloc c).brk = h.brk + 1 := rfl
@[simp] theorem brk_modify (h : Heap C) (a : Nat) (f : C → C) : (h.modify a f).brk = h.brk := rfl
@[simp] theorem brk_free (h : Heap C) (a : Nat) : (h.free a).brk = h.brk := rfl
@[simp] theorem cell_empty (a : Nat) : (empty : Heap C).cell a = none := rfl

@[simp] theorem cell_alloc_self (h : Heap C) (c : C) : (h.alloc c).cell h.brk = some c := by
  simp [alloc]

theorem cell_alloc_ne (h : Heap C) (c : C) {a : Nat} (ha : a ≠ h.brk) :
    (h.alloc c).cell a = h.cell a := by
  simp [alloc, ha]

@[simp] theorem cell_modify_self (h : Heap C) (a : Nat) (f : C → C) :
    (h.modify a f).cell a = (h.cell a).map f := by
  simp [modify]

theorem cell_modify_ne (h : Heap C) (f : C → C) {a b : Nat} (hb : b ≠ a) :
    (h.modify a f).cell b = h.cell b := by
  simp [modify, hb]

@[simp] theorem cell_free_self (h : Heap C) (a : Nat) : (h.free a).cell a = none := by
  simp [free]

theorem cell_free_ne (h : Heap C) {a b : Nat} (hb : b ≠ a) : (h.free a).cell b = h.cell b := by
  simp [free, hb]

theorem lt_brk (h : Heap C) {a : Nat} {c : C} (ha : h.cell a = some c) : a < h.brk := by
  by_contra hn
  have := h.fresh a (by omega)
  simp [this] at ha

theorem cell_alloc_old (h : Heap C) (d : C) {a : Nat} {c : C} (ha : h.cell a = some c) :
    (h.alloc d).cell a = some c := by
  have hlt := h.lt_brk ha
  rw [h.cell_alloc_ne d (by omega), ha]

theorem modify_modify (h : Heap C) (a : Nat) (f g : C → C) :
    (h.modify a f).modify a g = h.modify a (g ∘ f) := by
  simp only [modify, mk.injEq, and_true]
  funext x
  by_cases hx : x = a <;> simp [hx]

theorem free_modify (h : Heap C) (a : Nat) (f : C → C) : (h.modify a f).free a = h.free a := by
  simp only [free, modify, mk.injEq, and_true]
  funext x
  by_cases hx : x = a <;> simp [hx]

/-- Live identities in the order in which they were handed out. -/
def live (h : Heap C) : List Nat := (List.range h.brk).filter fun a => (h.cell a).isSome

theorem mem_live (h : Heap C) (a : Nat) : a ∈ h.live ↔ (h.cell a).isSome := by
  simp only [live, List.mem_filter, List.mem_range, and_iff_right_iff_imp]
  intro ha
  obtain ⟨c, hc⟩ := Option.isSome_iff_exists.mp ha
  exact h.lt_brk hc

theorem live_alloc (h : Heap C) (c : C) : (h.alloc c).live = h.live ++ [h.brk] := by
  simp only [live, brk_alloc, List.range_succ, List.filter_append]
  congr 1
  · apply List.filter_congr
    intro a ha
    rw [h.cell_alloc_ne c (by have := List.mem_range.mp ha; omega)]
  · simp

theorem live_nodup (h : Heap C) : h.live.Nodup := List.nodup_range.filter _

theorem live_free (h : Heap C) (a : Nat) : (h.free a).live = h.live.erase a := by
  rw [h.live_nodup.erase_eq_filter]
  simp only [live, brk_free, List.filter_filter]
  apply List.filter_congr
  intro b _
  by_cases hb : b = a
  · subst hb
    simp
  · simp [h.cell_free_ne hb, hb]

/-- The successor function that a link field induces on live cells. -/
def next (h : Heap C) (link : C → Option Nat) (a : Nat) : Option (Option Nat) :=
  (h.cell a).map link

end Heap

section Segments
variable {A : Type*} (nxt : A → Option (Option A))

/-- From the pointer `p` the links visit exactly `l` and end in the pointer `q`. -/
def Seg : Option A → List A → Option A → Prop
  | p, [], q => p = q
  | p, a :: l, q => p = some a ∧ ∃ r, nxt a = some r ∧ Seg r l q

/-- A NULL-terminated list. -/
def Chain (p : Option A) (l : List A) : Prop := Seg nxt p l none

variable {nxt}

theorem seg_append {p q : Option A} {l k : List A} :
    Seg nxt p (l ++ k) q ↔ ∃ r, Seg nxt p l r ∧ Seg nxt r k q := by
  induction l generalizing p with
  | nil => simp [Seg]
  | cons a l ih =>
    simp only [List.cons_append, Seg, ih]
    constructor
    · rintro ⟨hp, r, hr, s, hs, hk⟩
      exact ⟨s, ⟨hp, r, hr, hs⟩, hk⟩
    · rintro ⟨s, ⟨hp, r, hr, hs⟩, hk⟩
      exact ⟨hp, r, hr, s, hs, hk⟩

theorem seg_congr {nxt' : A → Option (Option A)} {p q : Option A} {l : List A}
    (h : ∀ a ∈ l, nxt' a = nxt a) (hs : Seg nxt p l q) : Seg nxt' p l q := by
  induction l generalizing p with
  | nil => exact hs
  | cons a l ih =>
    obtain ⟨hp, r, hr, hs⟩ := hs
    refine ⟨hp, r, ?_, ih (fun b hb => h b (List.mem_cons_of_mem a hb)) hs⟩
    rw [h a (by simp), hr]

theorem seg_live {p q : Option A} {l : List A} (hs : Seg nxt p l q) :
    ∀ a ∈ l, ∃ r, nxt a = some r := by
  induction l generalizing p with
  | nil => simp
  | cons b l ih =>
    obtain ⟨_, r, hr, hs⟩ := hs
    intro a ha
    rcases List.mem_cons.mp ha with rfl | ha
    · exact ⟨r, hr⟩
    · exact ih hs a ha

theorem chain_nil_iff {p : Option A} : Chain nxt p [] ↔ p = none := Iff.rfl

theorem chain_congr {nxt' : A → Option (Option A)} {p : Option A} {l : List A}
    (h : ∀ a ∈ l, nxt' a = nxt a) (hs : Chain nxt p l) : Chain nxt' p l := seg_congr h hs

theorem chain_none {l : List A} (h : Chain nxt none l) : l = [] := by
  cases l with
  | nil => rfl
  | cons a l => exact absurd h.1 (by simp)

theorem chain_some {a : A} {l : List A} (h : Chain nxt (some a) l) :
    ∃ k r, l = a :: k ∧ nxt a = some r ∧ Chain nxt r k := by
  cases l with
  | nil => exact absurd h (by simp [chain_nil_iff])
  | cons b k =>
    obtain ⟨hb, r, hr, hk⟩ := h
    cases hb
    exact ⟨k, r, rfl, hr, hk⟩

theorem chain_unique {p : Option A} {l k : List A} (hl : Chain nxt p l) (hk : Chain nxt p k) :
    l = k := by
  induction l generalizing p k with
  | nil =>
    rw [chain_nil_iff] at hl
    subst hl
    exact (chain_none hk).symm
  | cons a l ih =>
    obtain ⟨rfl, r, hr, hl⟩ := hl
    obtain ⟨k, s, rfl, hs, hk⟩ := chain_some hk
    rw [hr] at hs
    cases hs
    rw [ih hl hk]

theorem chain_suffix {p : Option A} {l k : List A} {a : A} (h : Chain nxt p (l ++ a :: k)) :
    Chain nxt (some a) (a :: k) := by
  obtain ⟨r, _, hr⟩ := seg_append.mp h
  have he : r = some a := hr.1
  exact he ▸ hr

/-- A list that ends in NULL cannot come back to a cell it has visited. -/
theorem chain_nodup {p : Option A} {l : List A} (h : Chain nxt p l) : l.Nodup := by
  induction l generalizing p with
  | nil => exact List.nodup_nil
  | cons a l ih =>
    obtain ⟨_, r, hr, hl⟩ := id h
    refine List.nodup_cons.mpr ⟨?_, ih hl⟩
    intro ha
    obtain ⟨l₁, l₂, rfl⟩ := List.append_of_mem ha
    have hs := chain_suffix hl
    have hh : Chain nxt (some a) (a :: (l₁ ++ a :: l₂)) := ⟨rfl, r, hr, hl⟩
    have hlen := congrArg List.length (chain_unique hs hh)
    simp at hlen
    omega

theorem chain_snoc {nxt' : A → Option (Option A)} {p : Option A} {l : List A} {t n : A}
    (h : Chain nxt p (l ++ [t])) (hsame : ∀ a ∈ l, nxt' a = nxt a)
    (ht : nxt' t = some (some n)) (hn : nxt' n = some none) :
    Chain nxt' p (l ++ [t] ++ [n]) := by
  obtain ⟨r, hl, hr⟩ := seg_append.mp h
  have he : r = some t := hr.1
  rw [List.append_assoc]
  refine seg_append.mpr ⟨r, seg_congr hsame hl, ?_⟩
  exact ⟨he, some n, ht, rfl, none, hn, rfl⟩

theorem chain_unlink_head {nxt' : A → Option (Option A)} {p r : Option A} {a : A} {l : List A}
    (h : Chain nxt p (a :: l)) (hr : nxt a = some r) (hsame : ∀ b ∈ l, nxt' b = nxt b) :
    Chain nxt' r l := by
  obtain ⟨_, s, hs, hl⟩ := h
  rw [hr] at hs
  cases hs
  exact chain_congr hsame hl

/-- Unlink a later cell by redirecting the link of the one before it. -/
theorem chain_unlink {nxt' : A → Option (Option A)} {p r : Option A} {a b : A} {l k : List A}
    (h : Chain nxt p (l ++ b :: a :: k)) (hr : nxt a = some r) (hb : nxt' b = some r)
    (hl : ∀ c ∈ l, nxt' c = nxt c) (hk : ∀ c ∈ k, nxt' c = nxt c) :
    Chain nxt' p (l ++ b :: k) := by
  obtain ⟨s, hsl, hs⟩ := seg_append.mp h
  obtain ⟨he, t, ht, ha, u, hu, hks⟩ := hs
  rw [hr] at hu
  cases hu
  exact seg_append.mpr ⟨s, seg_congr hl hsl, he, r, hb, seg_congr hk hks⟩

end Segments

section Walks
variable {A : Type*} (nxt : A → Option (Option A)) (found : A → Bool)

/-- Follow the links from a pointer to the first cell that satisfies `found`. The
answer is `none` when the walk touches a released cell or the fuel runs out. -/
def scan : Nat → Option A → Option (Option A)
  | _, none => some none
  | 0, some _ => none
  | n + 1, some a =>
    match nxt a with
    | none => none
    | some r => if found a then some (some a) else scan n r

variable {nxt found}

theorem scan_chain {n : Nat} {p : Option A} {l : List A} (h : Chain nxt p l) (hn : l.length ≤ n) :
    scan nxt found n p = some (l.find? found) := by
  induction l generalizing n p with
  | nil =>
    rw [chain_nil_iff] at h
    subst h
    cases n <;> rfl
  | cons a l ih =>
    obtain ⟨rfl, r, hr, hl⟩ := h
    cases n with
    | zero => simp at hn
    | succ n =>
      simp only [scan, hr, List.find?_cons]
      cases found a with
      | true => rfl
      | false => simpa using ih hl (by simpa using hn)

end Walks

theorem Heap.chain_length_le {C : Type*} (h : Heap C) (link : C → Option Nat) {p : Option Nat}
    {l : List Nat} (hl : Chain (h.next link) p l) : l.length ≤ h.brk := by
  have hsub : l ⊆ List.range h.brk := by
    intro a ha
    obtain ⟨r, hr⟩ := seg_live hl a ha
    obtain ⟨c, hc, _⟩ := Option.map_eq_some_iff.mp hr
    exact List.mem_range.mpr (h.lt_brk hc)
  simpa using (List.subperm_of_subset (chain_nodup hl) hsub).length_le

end TimeTask.Lib
