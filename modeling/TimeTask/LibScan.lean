import TimeTask.LoadLib
import Mathlib.Data.List.Find

/-! What one scan of a library directory leaves in the module list, and what it leaves open. -/
namespace TimeTask
open Lib

/-- The handle a node keeps of its library. -/
def Mem.handle (m : Mem) (a : Addr) : Option Addr := (m.node a).bind fun c => c.libdata.fdlib

/-- A node that carries the library `e`, opened as `h`, and is zero elsewhere. -/
structure Carries (dirch : List Byte) (e : Entry) (h : Addr) (c : Cycdata) : Prop where
  fdlib : c.libdata.fdlib = some h
  name : e.dName = [108, 105, 98] ++ c.libdata.name ++ [46, 115, 111]
  wherename : c.libdata.wherename = dirch ++ 47 :: e.dName
  method : ∃ syms, e.lib = some syms ∧ ∀ k, c.method k = syms k
  rest : c.tidata = Cycdata.zero.tidata ∧ c.para = none ∧ c.fdate = none ∧ c.ld = none

/-- The module list is one node for each of the libraries `es`, in their order. -/
structure Scanned (dirch : List Byte) (m₀ : Mem) (es : List Entry) (m : Mem) : Prop where
  list : m.ListIs (List.range' m₀.nodes.brk es.length)
  node : ∀ (i : Nat) (e : Entry), es[i]? = some e →
    ∃ c, m.node (m₀.nodes.brk + i) = some c ∧ Carries dirch e (m₀.libs.brk + i) c

theorem carries_of_built {dirch : List Byte} {e : Entry} {h : Addr} {c : Cycdata}
    (hc : e.candidate = true) (hb : some { c with next := none } = e.built dirch h) :
    Carries dirch e h c := by
  cases hlib : e.lib with
  | none => simp [Entry.built, hlib] at hb
  | some syms =>
    simp only [Entry.built, hlib, Option.map_some, builtNode, Cycdata.zero, Option.some.injEq,
      Cycdata.mk.injEq] at hb
    obtain ⟨htidata, hpara, hlibdata, hfdate, hinit, hlogin, hseach, hhowdo, hsend, hdeldate, hld, -⟩ := hb
    refine ⟨by rw [hlibdata], ?_, by rw [hlibdata]; rfl, ⟨syms, hlib, fun k => ?_⟩, ?_⟩
    · rw [hlibdata]
      exact e.dName_eq hc
    · cases k with
      | init => exact hinit
      | login => exact hlogin
      | seach => exact hseach
      | howdo => exact hhowdo
      | send => exact hsend
      | deldate => exact hdeldate
    · exact ⟨htidata, hpara, hfdate, hld⟩

theorem Appended.scanned {dirch : List Byte} {m₀ m m' : Mem} {es : List Entry}
    (h : Appended dirch m₀ [] es m) (hc : ∀ e ∈ es, e.candidate = true)
    (hn : m'.nodes = m.nodes) (hh : m'.cychead = m.cychead) : Scanned dirch m₀ es m' := by
  refine ⟨?_, fun i e he => ?_⟩
  · have hl := h.list
    rw [List.nil_append] at hl
    have hnxt : m'.nxt = m.nxt := by
      funext a
      rw [Mem.nxt_eq, Mem.nxt_eq, Mem.node, hn]
      rfl
    rw [Mem.ListIs, hnxt, hh]
    exact hl
  · obtain ⟨hb, hlib⟩ := h.body i e he
    obtain ⟨syms, hsyms⟩ := Option.isSome_iff_exists.mp hlib
    have hbuilt : e.built dirch (m₀.libs.brk + i) =
        some (builtNode ⟨m₀.libs.brk + i, e.chaa, e.chbb dirch, syms⟩) := by
      rw [Entry.built, hsyms, Option.map_some]
    have hbody := hb
    rw [hbuilt] at hbody
    obtain ⟨c, hnode, hz⟩ := Option.map_eq_some_iff.mp hbody
    refine ⟨c, by rw [Mem.node, hn]; exact hnode, ?_⟩
    exact carries_of_built (hc e (List.mem_of_getElem? he)) (by rw [hbuilt, hz])

/-- A run that is stopped reports it, and the list stays as it was. -/
theorem Stops.kept {e : Entry} {m m' : Mem} {ret : Int} (h : Stops e m ret m') :
    ret ≠ 0 ∧ m'.nodes = m.nodes ∧ m'.cychead = m.cychead := by
  cases h with
  | dlopen _ => exact ⟨by decide, rfl, rfl⟩
  | dlsym _ _ => exact ⟨by decide, rfl, rfl⟩
  | cycmk _ _ => exact ⟨by decide, rfl, rfl⟩

theorem takeWhile_congr {A : Type*} {p q : A → Bool} {l : List A} (h : ∀ x ∈ l, p x = q x) :
    l.takeWhile p = l.takeWhile q := by
  induction l with
  | nil => rfl
  | cons x l ih =>
    have ht := ih fun y hy => h y (List.mem_cons_of_mem x hy)
    rw [List.takeWhile_cons, List.takeWhile_cons, h x List.mem_cons_self, ht]

/-- A directory is taken over whole or refused, and what came before its first bad library stays. -/
theorem loadLib_scan {dirch : List Byte} {es : List Entry} {m : Mem} (h0 : m.cychead = none)
    (hmal : ∀ e ∈ es, e.candidate = true → e.malloc = true)
    (hpath : ∀ e ∈ es, e.candidate = true → dirch.length + 1 + e.dName.length ≤ 63) :
    ∃ ret m', loadLib (some dirch) (some es) m = some (ret, m') ∧
      (ret = 0 ↔ (∃ e ∈ es, e.candidate = true) ∧ ∀ e ∈ es, e.candidate = true → e.works = true) ∧
      (ret = 0 → Scanned dirch m (es.filter Entry.candidate) m') ∧
      (ret ≠ 0 → Scanned dirch m ((es.filter Entry.candidate).takeWhile Entry.works) m') := by
  have hfit : ∀ e ∈ es, e.candidate = true → (e.chbb dirch).length < 64 := by
    intro e he hc
    have hp := hpath e he hc
    simp only [Entry.chbb, List.length_append, List.length_cons]
    omega
  have hnil : m.ListIs [] := h0
  obtain ⟨ret, m', hrun⟩ := loadLib_returns hnil (fun hn => absurd rfl hn) hfit
  obtain ⟨m₁, happ, hend⟩ := loadLib_ends hnil (fun hn => absurd rfl hn) hrun
  have hcand : ∀ e ∈ es.filter Entry.candidate, e ∈ es ∧ e.candidate = true :=
    fun e he => List.mem_filter.mp he
  have hgood : ∀ e ∈ es.filter Entry.candidate, e.good = e.works := by
    intro e he
    rw [Entry.good, hmal e (hcand e he).1 (hcand e he).2, Bool.and_true]
  rw [takeWhile_congr hgood] at happ
  rw [List.find?_congr fun e he => congrArg not (hgood e he)] at hend
  have hscan : m'.nodes = m₁.nodes ∧ m'.cychead = m₁.cychead →
      Scanned dirch m ((es.filter Entry.candidate).takeWhile Entry.works) m' := by
    intro hk
    have hs := happ.scanned (fun e he => (hcand e ((List.takeWhile_sublist _).mem he)).2) hk.1 hk.2
    exact ⟨hs.list, hs.node⟩
  refine ⟨ret, m', hrun, ?_⟩
  cases hfind : (es.filter Entry.candidate).find? fun e => !e.works with
  | none =>
    rw [hfind] at hend
    rw [List.find?_eq_none] at hfind
    have hworks : ∀ e ∈ es.filter Entry.candidate, e.works = true := fun e he => by simpa using hfind e he
    have hs := hscan ⟨by rw [hend.1]; rfl, by rw [hend.1]; rfl⟩
    refine ⟨?_, fun _ => ?_, fun _ => hs⟩
    · rw [hend.2]
      constructor
      · intro hr
        refine ⟨?_, fun e he hc => hworks e (List.mem_filter.mpr ⟨he, hc⟩)⟩
        by_contra hno
        have hnil : es.filter Entry.candidate = [] := by
          rw [List.filter_eq_nil_iff]
          exact fun e he hc => hno ⟨e, he, hc⟩
        rw [hnil, List.length_nil, if_pos rfl] at hr
        exact absurd hr (by decide)
      · intro hall
        obtain ⟨⟨e, he, hc⟩, -⟩ := hall
        have hmem := List.mem_filter.mpr ⟨he, hc⟩
        exact if_neg fun hz => List.ne_nil_of_mem hmem (List.length_eq_zero_iff.mp hz)
    · rw [List.takeWhile_eq_self_iff.mpr hworks] at hs
      exact hs
  | some e =>
    rw [hfind] at hend
    obtain ⟨hret, hkept⟩ := Stops.kept hend
    have hmem := hcand e (List.mem_of_find?_eq_some hfind)
    have hbad := List.find?_some hfind
    refine ⟨⟨fun hz => absurd hz hret, fun hall => ?_⟩, fun hz => absurd hz hret, fun _ => hscan hkept⟩
    rw [hall.2 e hmem.1 hmem.2] at hbad
    cases hbad

def mixedDir : List Entry :=
  [aLib 1, { aLib 2 with dName := [97], nulFree := by decide }, { aLib 3 with lib := none }]

theorem loadLib_scan_mixed :
    (∀ e ∈ mixedDir, e.candidate = true → e.malloc = true) ∧
    (∀ e ∈ mixedDir, e.candidate = true → [46].length + 1 + e.dName.length ≤ 63) ∧
    ∃ ret m', loadLib (some [46]) (some mixedDir) Mem.init = some (ret, m') ∧
      (ret = 0 ↔ (∃ e ∈ mixedDir, e.candidate = true) ∧
        ∀ e ∈ mixedDir, e.candidate = true → e.works = true) ∧
      (ret = 0 → Scanned [46] Mem.init (mixedDir.filter Entry.candidate) m') ∧
      (ret ≠ 0 → Scanned [46] Mem.init ((mixedDir.filter Entry.candidate).takeWhile Entry.works) m') := by
  have hmal : ∀ e ∈ mixedDir, e.candidate = true → e.malloc = true := by
    simp [mixedDir, aLib]
  have hpath : ∀ e ∈ mixedDir, e.candidate = true → [46].length + 1 + e.dName.length ≤ 63 := by
    simp [mixedDir, aLib]
  exact ⟨hmal, hpath, loadLib_scan rfl hmal hpath⟩

/-- Every handle that was opened between `m` and `m'` has one place: the directory is closed, and
a library is in one node of the list or was closed, once. -/
def Balanced (m m' : Mem) : Prop :=
  ∃ es l', m'.trace = m.trace ++ es ∧ m'.ListIs l' ∧ es.count .closedir = 1 ∧
    ∀ h, m.libs.brk ≤ h → h < m'.libs.brk →
      ((∃! a, a ∈ l' ∧ m'.handle a = some h) ∧ es.count (.dlclose h) = 0) ∨
      ((∀ a ∈ l', m'.handle a ≠ some h) ∧ es.count (.dlclose h) = 1)

theorem Mem.handle_eq (m : Mem) (a : Addr) :
    m.handle a = (m.body a).bind fun c => c.libdata.fdlib := by
  rw [Mem.handle, Mem.body]
  cases m.node a <;> rfl

theorem Appended.handle {dirch : List Byte} {m₀ m : Mem} {l : List Addr} {es : List Entry}
    (h : Appended dirch m₀ l es m) {i : Nat} (hi : i < es.length) :
    m.handle (m₀.nodes.brk + i) = some (m₀.libs.brk + i) := by
  obtain ⟨hb, hlib⟩ := h.body i es[i] (List.getElem?_eq_getElem hi)
  obtain ⟨syms, hsyms⟩ := Option.isSome_iff_exists.mp hlib
  rw [Mem.handle_eq, hb, Entry.built, hsyms]
  rfl

/-- Each handle of a scan is in one node of the list. -/
theorem Appended.one_holder {dirch : List Byte} {m₀ m : Mem} {l : List Addr} {es : List Entry}
    (h : Appended dirch m₀ l es m) (hlt : ∀ a ∈ l, a < m₀.nodes.brk)
    (hold : ∀ a ∈ l, ∀ x, m₀.handle a = some x → x < m₀.libs.brk) {i : Nat} (hi : i < es.length) :
    ∃! a, a ∈ l ++ List.range' m₀.nodes.brk es.length ∧ m.handle a = some (m₀.libs.brk + i) := by
  refine ⟨m₀.nodes.brk + i, ⟨?_, h.handle hi⟩, fun b hb => ?_⟩
  · exact List.mem_append_right _ (List.mem_range'_1.mpr ⟨Nat.le_add_right _ _, Nat.add_lt_add_left hi _⟩)
  · obtain ⟨hmem, hhand⟩ := hb
    cases List.mem_append.mp hmem with
    | inl hl =>
      rw [Mem.handle_eq, h.old b (hlt b hl), ← Mem.handle_eq] at hhand
      exact absurd (hold b hl _ hhand) (Nat.not_lt.mpr (Nat.le_add_right _ _))
    | inr hr =>
      obtain ⟨hlow, hhigh⟩ := List.mem_range'_1.mp hr
      obtain ⟨j, rfl⟩ := Nat.exists_eq_add_of_le hlow
      rw [h.handle (Nat.lt_of_add_lt_add_left hhigh), Option.some.injEq] at hhand
      rw [Nat.add_left_cancel hhand]

theorem Stops.no_closedir {e : Entry} {m m' : Mem} {ret : Int} (h : Stops e m ret m') :
    ∃ es, m'.trace = m.trace ++ es ∧ es.count .closedir = 0 := by
  cases h with
  | dlopen _ => exact ⟨[], (List.append_nil _).symm, rfl⟩
  | dlsym _ _ => exact ⟨[.dlclose m.libs.brk], rfl, rfl⟩
  | cycmk _ _ => exact ⟨[], (List.append_nil _).symm, rfl⟩

/-- loadLib gives every handle its place when no candidate makes it return from the loop, and
only then. -/
theorem loadLib_balanced {dirch : List Byte} {es : List Entry} {m m' : Mem} {l : List Addr} {ret : Int}
    (hl : m.ListIs l) (ht : l ≠ [] → m.cycheadnext = l.getLast?)
    (hold : ∀ a ∈ l, ∀ x, m.handle a = some x → x < m.libs.brk)
    (hrun : loadLib (some dirch) (some es) m = some (ret, m')) :
    Balanced m m' ↔ ∀ e ∈ es, e.candidate = true → e.good = true := by
  obtain ⟨m₁, happ, hend⟩ := loadLib_ends hl ht hrun
  have htrace : m₁.trace = m.trace ++ [.opendir] := happ.rest.2.2.2.2
  cases hfind : (es.filter Entry.candidate).find? fun e => !e.good with
  | none =>
    rw [hfind] at hend
    rw [List.find?_eq_none] at hfind
    have hgood : ∀ e ∈ es, e.candidate = true → e.good = true := by
      intro e he hc
      simpa using hfind e (List.mem_filter.mpr ⟨he, hc⟩)
    obtain ⟨hm, -⟩ := hend
    subst hm
    have hlist : (m₁.emit [.closedir]).ListIs _ := happ.list
    refine ⟨fun _ => hgood, fun _ => ⟨[.opendir, .closedir], _, ?_, hlist, rfl, fun h hlow hhigh => ?_⟩⟩
    · rw [Mem.emit, htrace, List.append_assoc]
      rfl
    · obtain ⟨i, rfl⟩ := Nat.exists_eq_add_of_le hlow
      have hi := Nat.lt_of_add_lt_add_left (happ.libs ▸ hhigh)
      have hlt : ∀ a ∈ l, a < m.nodes.brk := by
        intro a ha
        obtain ⟨c, hc⟩ := hl.node ha
        exact m.nodes.lt_brk hc
      exact .inl ⟨happ.one_holder hlt hold hi, rfl⟩
  | some e =>
    rw [hfind] at hend
    obtain ⟨evs, hevs, hzero⟩ := Stops.no_closedir hend
    constructor
    · intro hb
      obtain ⟨xs, -, hxs, -, hone, -⟩ := hb
      rw [hevs, htrace, List.append_assoc] at hxs
      rw [← List.append_cancel_left hxs, List.count_append, hzero] at hone
      cases hone
    · intro hall
      have hmem := List.mem_filter.mp (List.mem_of_find?_eq_some hfind)
      have hbad := List.find?_some hfind
      rw [hall e hmem.1 hmem.2] at hbad
      cases hbad

theorem loadLib_balanced_twice : ∃ m ret m', loadLib (some [46]) (some [aLib 1]) Mem.init = some (0, m) ∧
    m.ListIs [0] ∧ loadLib (some [46]) (some [aLib 2]) m = some (ret, m') ∧
    (Balanced m m' ↔ ∀ e ∈ [aLib 2], e.candidate = true → e.good = true) := by
  have hfirst : ∃ m, loadLib (some [46]) (some [aLib 1]) Mem.init = some (0, m) ∧ m.ListIs [0] ∧
      m.cycheadnext = some 0 ∧ m.handle 0 = some 0 ∧ m.libs.brk = 1 ∧
      ∃ ret m', loadLib (some [46]) (some [aLib 2]) m = some (ret, m') :=
    ⟨_, rfl, ⟨rfl, none, rfl, rfl⟩, rfl, rfl, rfl, _, _, rfl⟩
  obtain ⟨m, hm, hl, htail, hhand, hbrk, ret, m', hrun⟩ := hfirst
  refine ⟨m, ret, m', hm, hl, hrun, loadLib_balanced hl (fun _ => htail) (fun a ha x hx => ?_) hrun⟩
  rw [List.mem_singleton.mp ha, hhand, Option.some.injEq] at hx
  rw [← hx, hbrk]
  exact Nat.zero_lt_one

/-- The directory holds a library that dlopen refuses, behind a good one: it is never closed. -/
theorem loadLib_leaves_open : ∃ m',
    loadLib (some [46]) (some mixedDir) Mem.init = some (tcsOtherErr - 1, m') ∧ ¬Balanced Mem.init m' := by
  refine ⟨_, rfl, fun h => ?_⟩
  obtain ⟨es, -, hes, -, hone, -⟩ := h
  have hev : es = [.opendir] := hes.symm
  rw [hev] at hone
  cases hone

end TimeTask
