import Mathlib.Data.List.Perm.Basic
import Mathlib.Data.List.Range

/-! First come, first served: each element of one list takes the first free element of another
list that fits it. -/
namespace TimeTask.Lib
variable {A B : Type*} (fits : A → B → Bool)

/-- The elements that got one, with what they got. -/
def pairUp : List B → List A → List (A × B)
  | _, [] => []
  | bs, a :: as =>
    match bs.find? (fits a) with
    | none => pairUp bs as
    | some b => (a, b) :: pairUp (bs.filter fun c => !fits a c) as

variable {fits}

/-- When no two of `bs` fit the same element, the first one that fits is the only one. -/
theorem filter_of_find {a : A} {b : B} {bs : List B}
    (hone : bs.Pairwise fun b c => fits a b = true → fits a c = false) (h : bs.find? (fits a) = some b) :
    bs.filter (fits a) = [b] := by
  have hhead : (bs.filter (fits a)).head? = some b := by rw [List.head?_filter, h]
  obtain ⟨t, ht⟩ := List.head?_eq_some_iff.mp hhead
  have hp := hone.filter (fits a)
  rw [ht] at hp ⊢
  cases t with
  | nil => rfl
  | cons c t =>
    have hb : fits a b = true := List.find?_some h
    have hc : c ∈ bs.filter (fits a) := by simp [ht]
    have hn := (List.pairwise_cons.mp hp).1 c (by simp) hb
    rw [(List.mem_filter.mp hc).2] at hn
    cases hn

/-- Everything is taken when everything fits somewhere and no two fit the same element. -/
theorem pairUp_perm (as : List A) : ∀ bs : List B,
    (∀ a ∈ as, bs.Pairwise fun b c => fits a b = true → fits a c = false) →
    (∀ b ∈ bs, ∃ a ∈ as, fits a b = true) → ((pairUp fits bs as).map Prod.snd).Perm bs := by
  induction as with
  | nil =>
    intro bs _ hall
    cases bs with
    | nil => exact .refl _
    | cons b bs =>
      obtain ⟨a, ha, _⟩ := hall b (by simp)
      cases ha
  | cons a as ih =>
    intro bs hone hall
    cases hf : bs.find? (fits a) with
    | none =>
      simp only [pairUp, hf]
      refine ih bs (fun x hx => hone x (List.mem_cons_of_mem a hx)) fun b hb => ?_
      obtain ⟨x, hx, hxb⟩ := hall b hb
      cases List.mem_cons.mp hx with
      | inl he =>
        rw [he] at hxb
        exact absurd hxb (List.find?_eq_none.mp hf b hb)
      | inr hx => exact ⟨x, hx, hxb⟩
    | some b =>
      simp only [pairUp, hf, List.map_cons]
      have hsplit := List.filter_append_perm (fits a) bs
      rw [filter_of_find (hone a (by simp)) hf] at hsplit
      refine (List.Perm.cons b (ih _ (fun x hx => ?_) fun c hc => ?_)).trans hsplit
      · exact (hone x (List.mem_cons_of_mem a hx)).filter _
      · obtain ⟨hcm, hca⟩ := List.mem_filter.mp hc
        obtain ⟨x, hx, hxc⟩ := hall c hcm
        cases List.mem_cons.mp hx with
        | inl he =>
          rw [he] at hxc
          simp [hxc] at hca
        | inr hx => exact ⟨x, hx, hxc⟩

theorem pairUp_map {C : Type*} (g : C → B) (as : List A) : ∀ cs : List C,
    pairUp fits (cs.map g) as = (pairUp (fun a c => fits a (g c)) cs as).map fun p => (p.1, g p.2) := by
  induction as with
  | nil => exact fun cs => rfl
  | cons a as ih =>
    intro cs
    have hfind : (cs.map g).find? (fits a) = (cs.find? fun c => fits a (g c)).map g := by
      rw [List.find?_map]
      rfl
    cases hf : cs.find? fun c => fits a (g c) with
    | none =>
      rw [hf, Option.map_none] at hfind
      simp only [pairUp, hfind, hf]
      exact ih cs
    | some c =>
      rw [hf, Option.map_some] at hfind
      simp only [pairUp, hfind, hf, List.map_cons, List.filter_map]
      congr 1
      exact ih _

variable (fits)

/-- Behind the elements `done`, the free ones are those that fit none of them. -/
theorem pairUp_indices (bs : List B) (rest : List A) : ∀ done : List A,
    List.Forall₂
      (fun i p => (done ++ rest)[i]? = some p.1 ∧ p.2 ∈ bs ∧ fits p.1 p.2 = true ∧
        (done ++ rest).findIdx? (fun a => fits a p.2) = some i)
      ((List.range' done.length rest.length).filter fun i =>
        bs.any fun b => (done ++ rest).findIdx? (fun a => fits a b) == some i)
      (pairUp fits (bs.filter fun b => done.all fun a => !fits a b) rest) := by
  induction rest with
  | nil => exact fun done => .nil
  | cons a rest ih =>
    intro done
    have happ : done ++ a :: rest = done ++ [a] ++ rest := by simp
    have hat : (done ++ a :: rest)[done.length]? = some a := by simp
    have hfirst : ∀ b, (done ++ a :: rest).findIdx? (fun x => fits x b) = some done.length ↔
        fits a b = true ∧ (done.all fun x => !fits x b) = true := by
      intro b
      rw [List.findIdx?_append, List.findIdx?_cons]
      cases hd : done.findIdx? (fun x => fits x b) with
      | none =>
        rw [List.findIdx?_eq_none_iff] at hd
        have hall : (done.all fun x => !fits x b) = true := List.all_eq_true.mpr fun x hx => by simp [hd x hx]
        cases hab : fits a b with
        | true => simp [hall]
        | false =>
          refine iff_of_false (fun he => ?_) fun he => absurd he.1 Bool.false_ne_true
          rw [Option.none_or, if_neg Bool.false_ne_true, Option.map_eq_some_iff] at he
          obtain ⟨i, hi, hlen⟩ := he
          obtain ⟨j, _, hj⟩ := Option.map_eq_some_iff.mp hi
          omega
      | some i =>
        obtain ⟨hi, hib, _⟩ := List.findIdx?_eq_some_iff_getElem.mp hd
        have hne : ¬ (done.all fun x => !fits x b) = true := by
          intro hall
          have := List.all_eq_true.mp hall _ (List.getElem_mem hi)
          simp [hib] at this
        refine iff_of_false (fun he => ?_) fun he => hne he.2
        rw [Option.some_or, Option.some.injEq] at he
        omega
    have hrest := ih (done ++ [a])
    rw [← happ] at hrest
    have hlen : (done ++ [a]).length = done.length + 1 := by simp
    rw [hlen] at hrest
    have hfilter : (bs.filter fun b => (done ++ [a]).all fun x => !fits x b) =
        (bs.filter fun b => done.all fun x => !fits x b).filter fun c => !fits a c := by
      rw [List.filter_filter]
      refine List.filter_congr fun b _ => ?_
      simp [Bool.and_comm]
    rw [List.length_cons, List.range'_succ]
    cases hf : (bs.filter fun b => done.all fun x => !fits x b).find? (fits a) with
    | none =>
      have hno : ∀ b ∈ bs, (done.all fun x => !fits x b) = true → fits a b = false := by
        intro b hb hd
        simpa using List.find?_eq_none.mp hf b (List.mem_filter.mpr ⟨hb, hd⟩)
      have hskip : (bs.any fun b => (done ++ a :: rest).findIdx? (fun x => fits x b) == some done.length) = false := by
        rw [List.any_eq_false]
        intro b hb he
        obtain ⟨hab, hd⟩ := (hfirst b).mp (by simpa using he)
        rw [hno b hb hd] at hab
        cases hab
      have hsame : (bs.filter fun b => done.all fun x => !fits x b).filter (fun c => !fits a c) =
          bs.filter fun b => done.all fun x => !fits x b := by
        rw [List.filter_eq_self]
        intro b hb
        obtain ⟨hbm, hd⟩ := List.mem_filter.mp hb
        simp [hno b hbm hd]
      rw [List.filter_cons, hskip, if_neg Bool.false_ne_true]
      simp only [pairUp, hf]
      rwa [hfilter, hsame] at hrest
    | some b =>
      have hb := List.mem_of_find?_eq_some hf
      have hab : fits a b = true := List.find?_some hf
      obtain ⟨hbm, hd⟩ := List.mem_filter.mp hb
      have hidx := (hfirst b).mpr ⟨hab, hd⟩
      have htake : (bs.any fun b => (done ++ a :: rest).findIdx? (fun x => fits x b) == some done.length) = true :=
        List.any_eq_true.mpr ⟨b, hbm, by simpa using hidx⟩
      rw [List.filter_cons, htake, if_pos rfl]
      simp only [pairUp, hf]
      rw [hfilter] at hrest
      exact .cons ⟨hat, hbm, hab, hidx⟩ hrest

end TimeTask.Lib
