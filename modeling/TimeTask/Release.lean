import TimeTask.Reentry

/-! What an uninterrupted run of gameover releases. -/
namespace TimeTask
open Lib

def Event.releases : Event → Bool
  | .free _ => true
  | .dlclose _ => true
  | .logDel _ => true
  | .freeShead => true
  | .freeOne _ => true
  | .freeFile _ => true
  | _ => false

def Mem.withTrace (tr : List Event) (m : Mem) : Mem := { m with trace := tr }

theorem Mem.withTrace_emit (tr es : List Event) (m : Mem) :
    (m.withTrace tr).emit es = m.withTrace (tr ++ es) := rfl

theorem Mem.withTrace_node (tr : List Event) (m : Mem) (a : Addr) : (m.withTrace tr).node a = m.node a := rfl

theorem exec_withTrace {m n : Mem} {a : Addr} {s : Cleanup} (h : s.exec a m = some n) :
    ∃ es, n.trace = m.trace ++ es ∧ (∀ e ∈ es, e.releases = true) ∧
      ∀ tr, s.exec a (m.withTrace tr) = some (n.withTrace (tr ++ es)) := by
  simp only [Cleanup.exec] at h
  cases hc : m.node a with
  | none => simp [hc] at h
  | some c =>
    rw [hc] at h
    simp only [Cleanup.exec, Mem.withTrace_node, hc]
    cases s with
    | fdate =>
      cases h
      exact ⟨[], by simp [Mem.update], by simp, fun tr => by simp [Mem.withTrace, Mem.update]⟩
    | logDel =>
      simp only at h ⊢
      split_ifs at h with hl
      · cases hld : c.ld with
        | none => exact absurd hld hl.1
        | some l =>
          rw [hld] at h hl
          simp only [TimeTask.logDel] at h
          cases hcell : m.logs.cell l with
          | none => simp [hcell] at h
          | some u =>
            simp only [hcell, Option.some.injEq] at h
            subst h
            refine ⟨[.logDel l], rfl, by simp [Event.releases], fun tr => ?_⟩
            rw [if_pos (show some l ≠ none ∧ some l ≠ (m.withTrace tr).mainld from hl)]
            simp [TimeTask.logDel, Mem.withTrace, hcell, Mem.emit]
      · cases h
        refine ⟨[], by simp, by simp, fun tr => ?_⟩
        rw [if_neg (show ¬ (c.ld ≠ none ∧ c.ld ≠ (m.withTrace tr).mainld) from hl)]
        simp
    | ld =>
      cases h
      exact ⟨[], by simp [Mem.update], by simp, fun tr => by simp [Mem.withTrace, Mem.update]⟩
    | dlclose =>
      simp only at h ⊢
      cases hl : c.libdata.fdlib with
      | none =>
        rw [hl] at h
        cases h
        exact ⟨[], by simp, by simp, fun tr => by simp⟩
      | some l =>
        rw [hl] at h
        simp only [TimeTask.dlclose] at h
        cases hcell : m.libs.cell l with
        | none => simp [hcell] at h
        | some u =>
          simp only [hcell, Option.some.injEq] at h
          subst h
          refine ⟨[.dlclose l], rfl, by simp [Event.releases], fun tr => ?_⟩
          simp [TimeTask.dlclose, Mem.withTrace, hcell, Mem.emit]
    | fdlib =>
      cases h
      exact ⟨[], by simp [Mem.update], by simp, fun tr => by simp [Mem.withTrace, Mem.update]⟩
    | next =>
      cases h
      exact ⟨[], by simp [Mem.update], by simp, fun tr => by simp [Mem.withTrace, Mem.update]⟩
    | free =>
      cases h
      exact ⟨[.free a], rfl, by simp [Event.releases], fun tr => rfl⟩

theorem exec_none_withTrace {m : Mem} {a : Addr} {s : Cleanup} (h : s.exec a m = none) (tr : List Event) :
    s.exec a (m.withTrace tr) = none := by
  cases he : s.exec a (m.withTrace tr) with
  | none => rfl
  | some n =>
    obtain ⟨es, _, _, hall⟩ := exec_withTrace he
    have hm : (m.withTrace tr).withTrace m.trace = m := rfl
    have hs := hall m.trace
    rw [hm, h] at hs
    cases hs

theorem cleanup_dlclose {m : Mem} {a : Addr} {c : Cycdata} (hc : m.node a = some c)
    (ok : ∀ h, c.libdata.fdlib = some h → (m.libs.cell h).isSome) :
    Cleanup.run a [.dlclose, .fdlib] m =
      some { m with
        nodes := m.nodes.modify a fun d => { d with libdata := { d.libdata with fdlib := none } }
        libs := match c.libdata.fdlib with
          | none => m.libs
          | some h => m.libs.free h
        trace := m.trace ++ c.libdata.fdlib.toList.map .dlclose } := by
  have hn : m.nodes.cell a = some c := hc
  cases hf : c.libdata.fdlib with
  | none => simp [Cleanup.run, Cleanup.exec, Mem.node, Mem.update, hn, hf]
  | some h =>
    obtain ⟨u, hu⟩ := Option.isSome_iff_exists.mp (ok h hf)
    simp [Cleanup.run, Cleanup.exec, Mem.node, Mem.update, Mem.emit, hn, hf, dlclose, hu]

section Run
variable (dirch : List Byte) (env : Frame → Ans) (who : Nat) (sig : Bool)

abbrev overBody : Frame × Mem → Pass (Frame × Mem) (Bool × Mem) := (daemon dirch).soloBody env

/-- The process dies on the way, before it calls exit. -/
def Dies (f : Frame) (m : Mem) : Prop :=
  ∃ m' xs, Leaves (overBody dirch env) (f, m) (false, m') ∧ m'.trace = m.trace ++ xs ∧ .exit ∉ xs

theorem Dies.of_goes {f g : Frame} {m n : Mem} (xs : List Event)
    (h : Goes (overBody dirch env) (f, m) (g, n)) (ht : n.trace = m.trace ++ xs) (hx : .exit ∉ xs)
    (hd : Dies dirch env g n) : Dies dirch env f m := by
  obtain ⟨m', ys, hl, hm, hy⟩ := hd
  refine ⟨m', xs ++ ys, Leaves.of_goes h hl, ?_, ?_⟩
  · rw [hm, ht, List.append_assoc]
  · simp [hx, hy]

/-- A statement of gameover on its node: the place `at_ ss` executes the cleanups `ss`. -/
def Cleans (a : Addr) (at_ : List Cleanup → OverPc) : Prop :=
  ∀ s ss ans m, overStep who sig (at_ (s :: ss)) ans m = touch who a m fun _ m =>
    match s.exec a m with
    | none => crash m
    | some m => (.goto (.gameover who sig (at_ ss)), m)

variable {who sig}

theorem clean_run {a : Addr} {at_ : List Cleanup → OverPc} (h : Cleans who sig a at_) {ss : List Cleanup}
    {m n : Mem} (hr : Cleanup.run a ss m = some n) :
    ∃ es, n.trace = m.trace ++ es ∧ ∀ tr, ∃ xs, xs.filter Event.releases = es.filter Event.releases ∧
      .exit ∉ xs ∧ Goes (overBody dirch env) (.gameover who sig (at_ ss), m.withTrace tr)
        (.gameover who sig (at_ []), n.withTrace (tr ++ xs)) := by
  induction ss generalizing m with
  | nil =>
    cases hr
    exact ⟨[], by simp, fun tr => ⟨[], rfl, by simp, by simpa using Goes.refl _⟩⟩
  | cons s ss ih =>
    simp only [Cleanup.run, Option.bind_eq_some_iff] at hr
    obtain ⟨q, hq, hr⟩ := hr
    obtain ⟨es, hes, hrel, hall⟩ := exec_withTrace hq
    obtain ⟨fs, hfs, hrun⟩ := ih hr
    refine ⟨es ++ fs, by rw [hfs, hes, List.append_assoc], fun tr => ?_⟩
    obtain ⟨xs, hx, hxe, hg⟩ := hrun (tr ++ [.access who a] ++ es)
    have hcell : ∃ c, m.node a = some c := by
      cases hc : m.node a with
      | none => simp [Cleanup.exec, hc] at hq
      | some c => exact ⟨c, rfl⟩
    obtain ⟨c, hc⟩ := hcell
    have hstep : overBody dirch env (.gameover who sig (at_ (s :: ss)), m.withTrace tr) =
        .again (.gameover who sig (at_ ss), q.withTrace (tr ++ [.access who a] ++ es)) := by
      simp only [Machine.soloBody, daemon, h s ss, touch, Mem.withTrace_emit, Mem.withTrace_node, hc, hall]
    have hes' : .exit ∉ es := fun he => by cases hrel _ he
    refine ⟨[.access who a] ++ es ++ xs, by simp [hx, Event.releases], by simp [hes', hxe], ?_⟩
    simpa using (Goes.one hstep).trans hg

theorem clean_dies {a : Addr} {at_ : List Cleanup → OverPc} (h : Cleans who sig a at_)
    {ss : List Cleanup} {m : Mem} (hr : Cleanup.run a ss m = none) (tr : List Event) :
    Dies dirch env (.gameover who sig (at_ ss)) (m.withTrace tr) := by
  induction ss generalizing m tr with
  | nil => cases hr
  | cons s ss ih =>
    cases hc : m.node a with
    | none =>
      refine ⟨m.withTrace (tr ++ [.access who a]), [.access who a], Leaves.now ?_, rfl, by simp⟩
      simp only [Machine.soloBody, daemon, h s ss, touch, Mem.withTrace_emit, Mem.withTrace_node, hc]
      rfl
    | some c =>
      cases hq : s.exec a m with
      | none =>
        refine ⟨m.withTrace (tr ++ [.access who a]), [.access who a], Leaves.now ?_, rfl, by simp⟩
        simp only [Machine.soloBody, daemon, h s ss, touch, Mem.withTrace_emit, Mem.withTrace_node, hc,
          exec_none_withTrace hq]
        rfl
      | some q =>
        obtain ⟨es, hes, hrel, hall⟩ := exec_withTrace hq
        have hes' : .exit ∉ es := fun he => by cases hrel _ he
        have hstep : overBody dirch env (.gameover who sig (at_ (s :: ss)), m.withTrace tr) =
            .again (.gameover who sig (at_ ss), q.withTrace (tr ++ [.access who a] ++ es)) := by
          simp only [Machine.soloBody, daemon, h s ss, touch, Mem.withTrace_emit, Mem.withTrace_node, hc, hall]
        have hr' : Cleanup.run a ss q = none := by simpa [Cleanup.run, hq] using hr
        refine Dies.of_goes dirch env ([.access who a] ++ es) (Goes.one hstep) ?_ (by simp [hes']) (ih hr' _)
        simp [Mem.withTrace]

theorem before_cleans (who : Nat) (sig : Bool) (a : Addr) : Cleans who sig a (OverPc.before a) := fun _ _ _ _ => rfl

theorem after_cleans (who : Nat) (sig : Bool) (a : Addr) : Cleans who sig a (OverPc.after a) := fun _ _ _ _ => rfl

/-- Where the loop of gameover stands with the rest of the list in `p`. -/
def walkAt (who : Nat) (sig : Bool) : Option Addr → Frame
  | none => .gameover who sig .cychead
  | some a => .gameover who sig (.before a [.fdate, .logDel, .ld])

theorem timeDel_run (who : Nat) (sig : Bool) {a : Addr} {c : Cycdata} {m : Mem} (hc : m.node a = some c) (tr : List Event) :
    ∃ xs, xs.filter Event.releases = [] ∧ .exit ∉ xs ∧
      Goes (overBody dirch env) (.gameover who sig (.timeDel a), m.withTrace tr)
        (.gameover who sig (.after a [.dlclose, .fdlib]), m.withTrace (tr ++ xs)) := by
  by_cases hd : c.deldate = none
  · refine ⟨[.access who a], by simp [Event.releases], by simp, Goes.one ?_⟩
    simp only [Machine.soloBody, daemon, overStep, touch, Mem.withTrace_emit, Mem.withTrace_node, hc, hd, if_true]
  · let r := (env (.gameover who sig (.wait a))).ret
    have h1 : overBody dirch env (.gameover who sig (.timeDel a), m.withTrace tr) =
        .again (.gameover who sig (.wait a), m.withTrace (tr ++ [.access who a] ++ [.call who a .deldate])) := by
      simp only [Machine.soloBody, daemon, overStep, touch, Mem.withTrace_emit, Mem.withTrace_node, hc, hd, if_false]
    have h2 : overBody dirch env
        (.gameover who sig (.wait a), m.withTrace (tr ++ [.access who a] ++ [.call who a .deldate])) =
        .again (.gameover who sig (.after a [.dlclose, .fdlib]),
          m.withTrace (tr ++ [.access who a] ++ [.call who a .deldate] ++ [.ret who a .deldate r])) := rfl
    refine ⟨[.access who a, .call who a .deldate, .ret who a .deldate r], by simp [Event.releases], by simp, ?_⟩
    simpa using (Goes.one h1).trans (Goes.one h2)

/-- The memory after the first three statements of the loop on `a`. -/
def Mem.logDown (m : Mem) (a : Addr) (c : Cycdata) : Mem :=
  { m with
    nodes := m.nodes.modify a fun d => { d with fdate := none, ld := none }
    logs := match ownLog m c with
      | none => m.logs
      | some l => m.logs.free l
    trace := m.trace ++ (ownLog m c).toList.map .logDel }

theorem logDown_node {m : Mem} {a : Addr} {c : Cycdata} (hc : m.node a = some c) :
    (m.logDown a c).node a = some { c with fdate := none, ld := none } := by
  have hn : m.nodes.cell a = some c := hc
  simp [Mem.logDown, Mem.node, hn]

theorem before_down (who : Nat) (sig : Bool) {a : Addr} {c : Cycdata} {m : Mem} (hc : m.node a = some c)
    (ok : ∀ l, c.ld = some l → c.ld ≠ m.mainld → (m.logs.cell l).isSome) (tr : List Event) :
    ∃ xs, xs.filter Event.releases = (ownLog m c).toList.map .logDel ∧ .exit ∉ xs ∧
      Goes (overBody dirch env) (walkAt who sig (some a), m.withTrace tr)
        (.gameover who sig (.timeDel a), (m.logDown a c).withTrace (tr ++ xs)) := by
  have hrun : Cleanup.run a [.fdate, .logDel, .ld] m = some (m.logDown a c) := cleanup_log hc ok
  obtain ⟨es, hes, hall⟩ := clean_run dirch env (before_cleans who sig a) hrun
  have he : es = (ownLog m c).toList.map .logDel := (List.append_cancel_left hes).symm
  obtain ⟨xs, hx, hxe, hg⟩ := hall tr
  have h1 : Goes (overBody dirch env) (.gameover who sig (.before a []), (m.logDown a c).withTrace (tr ++ xs))
      (.gameover who sig (.timeDel a), (m.logDown a c).withTrace (tr ++ xs)) := Goes.one rfl
  refine ⟨xs, ?_, hxe, hg.trans h1⟩
  rw [hx, he]
  cases ownLog m c <;> simp [Event.releases]

theorem log_down (who : Nat) (sig : Bool) {a : Addr} {c : Cycdata} {m : Mem} (hc : m.node a = some c)
    (ok : ∀ l, c.ld = some l → c.ld ≠ m.mainld → (m.logs.cell l).isSome) (tr : List Event) :
    ∃ xs, xs.filter Event.releases = (ownLog m c).toList.map .logDel ∧ .exit ∉ xs ∧
      Goes (overBody dirch env) (walkAt who sig (some a), m.withTrace tr)
        (.gameover who sig (.after a [.dlclose, .fdlib]), (m.logDown a c).withTrace (tr ++ xs)) := by
  obtain ⟨xs, hx, hxe, hg⟩ := before_down dirch env who sig hc ok tr
  obtain ⟨ys, hy, hye, hd⟩ := timeDel_run dirch env who sig (logDown_node hc) (tr ++ xs)
  refine ⟨xs ++ ys, by rw [List.filter_append, hx, hy, List.append_nil], by simp [hxe, hye], ?_⟩
  rw [← List.append_assoc]
  exact hg.trans hd

/-- One round of the loop of gameover releases the node and what it owns, each of them once. -/
theorem node_down (who : Nat) (sig : Bool) {a : Addr} {c : Cycdata} {m : Mem} (hc : m.node a = some c)
    (ok : HandleOk m c) (tr : List Event) :
    ∃ xs, xs.filter Event.releases = releaseEvents m a c ∧ .exit ∉ xs ∧
      Goes (overBody dirch env) (walkAt who sig (some a), m.withTrace tr)
        (walkAt who sig c.next, (m.release a c).withTrace (tr ++ xs)) := by
  obtain ⟨xs₁, hx₁, hn₁, hg₁⟩ := log_down dirch env who sig hc ok.log tr
  let c₁ : Cycdata := { c with fdate := none, ld := none }
  have hc₁ : (m.logDown a c).node a = some c₁ := logDown_node hc
  let n : Mem := { m.logDown a c with
    nodes := (m.logDown a c).nodes.modify a fun d => { d with libdata := { d.libdata with fdlib := none } }
    libs := match c.libdata.fdlib with
      | none => m.libs
      | some h => m.libs.free h
    trace := (m.logDown a c).trace ++ c.libdata.fdlib.toList.map .dlclose }
  have hrun : Cleanup.run a [.dlclose, .fdlib] (m.logDown a c) = some n := cleanup_dlclose (c := c₁) hc₁ ok.lib
  have hcn : ∃ d, n.node a = some d ∧ d.next = c.next := by
    have hn : (m.logDown a c).nodes.cell a = some c₁ := hc₁
    exact ⟨{ c₁ with libdata := { c₁.libdata with fdlib := none } }, by simp [n, Mem.node, hn], rfl⟩
  obtain ⟨d, hd, hdn⟩ := hcn
  obtain ⟨es₂, hes₂, hall₂⟩ := clean_run dirch env (after_cleans who sig a) hrun
  have he₂ : es₂ = c.libdata.fdlib.toList.map .dlclose := (List.append_cancel_left hes₂).symm
  obtain ⟨xs₂, hx₂, hn₂, hg₂⟩ := hall₂ (tr ++ xs₁)
  let tr₂ : List Event := tr ++ xs₁ ++ xs₂
  have h1 : Goes (overBody dirch env) (.gameover who sig (.after a []), n.withTrace tr₂)
      (.gameover who sig (.takeNext a), n.withTrace tr₂) := Goes.one rfl
  have h2 : Goes (overBody dirch env) (.gameover who sig (.takeNext a), n.withTrace tr₂)
      (.gameover who sig (.free a c.next), n.withTrace (tr₂ ++ [Event.access who a])) := Goes.one (by
    simp only [Machine.soloBody, daemon, overStep, touch, Mem.withTrace_emit, Mem.withTrace_node, hd, hdn])
  have hm : ({ n.withTrace (tr₂ ++ [Event.access who a]) with nodes := n.nodes.free a }.emit [Event.free a] : Mem) =
      (m.release a c).withTrace (tr₂ ++ [Event.access who a] ++ [Event.free a]) := by
    have hnodes : n.nodes.free a = m.nodes.free a := by
      simp only [n, Mem.logDown, Heap.free_modify]
    rw [Mem.withTrace, hnodes]
    rfl
  have h3 : Goes (overBody dirch env) (.gameover who sig (.free a c.next), n.withTrace (tr₂ ++ [Event.access who a]))
      (walkAt who sig c.next, (m.release a c).withTrace (tr₂ ++ [Event.access who a] ++ [Event.free a])) := Goes.one (by
    simp only [Machine.soloBody, daemon, overStep, Cleanup.exec, Mem.withTrace_node, hd]
    rw [← hm]
    cases c.next <;> rfl)
  refine ⟨xs₁ ++ xs₂ ++ [Event.access who a] ++ [Event.free a], ?_, by simp [hn₁, hn₂], ?_⟩
  · have hf : (c.libdata.fdlib.toList.map Event.dlclose).filter Event.releases =
        c.libdata.fdlib.toList.map .dlclose := by
      cases c.libdata.fdlib <;> simp [Event.releases]
    simp [List.filter_append, hx₁, hx₂, he₂, hf, releaseEvents, Event.releases]
  · have hall := (((hg₁.trans hg₂).trans h1).trans h2).trans h3
    simpa [tr₂] using hall

/-- A node that is released, or that has a released handle, is the end of the process. -/
theorem node_crash (who : Nat) (sig : Bool) {a : Addr} {m : Mem}
    (h : ¬ ∃ c, m.node a = some c ∧ HandleOk m c) (tr : List Event) :
    Dies dirch env (walkAt who sig (some a)) (m.withTrace tr) := by
  cases hc : m.node a with
  | none =>
    refine clean_dies dirch env (before_cleans who sig a) ?_ tr
    simp [Cleanup.run, Cleanup.exec, hc]
  | some c =>
    have hn : m.nodes.cell a = some c := hc
    by_cases hlog : ∀ l, c.ld = some l → c.ld ≠ m.mainld → (m.logs.cell l).isSome
    · have hlib : ∃ x, c.libdata.fdlib = some x ∧ m.libs.cell x = none := by
        by_contra hno
        refine h ⟨c, hc, hlog, fun x hx => ?_⟩
        cases hcell : m.libs.cell x with
        | none => exact absurd ⟨x, hx, hcell⟩ hno
        | some u => rfl
      obtain ⟨x, hx, hcell⟩ := hlib
      obtain ⟨xs, _, hxe, hg⟩ := log_down dirch env who sig hc hlog tr
      refine Dies.of_goes dirch env xs hg rfl hxe (clean_dies dirch env (after_cleans who sig a) ?_ _)
      have hcell' : (m.logDown a c).libs.cell x = none := hcell
      simp [Cleanup.run, Cleanup.exec, logDown_node hc, hx, dlclose, hcell']
    · have hl : ∃ l, c.ld = some l ∧ c.ld ≠ m.mainld ∧ m.logs.cell l = none := by
        by_contra hno
        refine hlog fun l hl hne => ?_
        cases hcell : m.logs.cell l with
        | none => exact absurd ⟨l, hl, hne, hcell⟩ hno
        | some u => rfl
      obtain ⟨l, hl, hne, hcell⟩ := hl
      refine clean_dies dirch env (before_cleans who sig a) ?_ tr
      rw [hl] at hne
      simp [Cleanup.run, Cleanup.exec, Mem.node, Mem.update, hn, hl, hne, logDel, hcell]

/-- What the node `a` and its handles are released with. -/
def Mem.releasesOf (m : Mem) (a : Addr) : List Event :=
  match m.node a with
  | none => []
  | some c => releaseEvents m a c

/-- From `p` gameover comes through `l`: each node is live and its handles are open when its
turn comes. -/
inductive Torn : Mem → Option Addr → List Addr → Mem → Prop
  | nil (m : Mem) : Torn m none [] m
  | cons {m n : Mem} {a : Addr} {c : Cycdata} {l : List Addr} (hc : m.node a = some c)
      (ok : HandleOk m c) (h : Torn (m.release a c) c.next l n) : Torn m (some a) (a :: l) n

theorem release_node_self (m : Mem) (a : Addr) (c : Cycdata) : (m.release a c).node a = none := by
  simp [Mem.release, Mem.node]

theorem release_node_ne (m : Mem) (c : Cycdata) {a b : Addr} (h : b ≠ a) :
    (m.release a c).node b = m.node b := by
  simp [Mem.release, Mem.node, Heap.cell_free_ne _ h]

theorem release_freed {m : Mem} {a : Addr} {c : Cycdata} : Freed m a c (m.release a c) := by
  refine ⟨release_node_self m a c, fun b hb => ?_, rfl, rfl, rfl, rfl, rfl, rfl, rfl, rfl⟩
  simp [Mem.body, release_node_ne m c hb]

theorem open_of_free {h : Heap Unit} {x y : Addr} (hx : ((h.free y).cell x).isSome) : (h.cell x).isSome := by
  by_cases hxy : x = y
  · simp [hxy] at hx
  · simpa [Heap.cell_free_ne _ hxy] using hx

theorem apart_cons {P : Addr → Addr → Prop} {a : Addr} {l : List Addr} (ha : ∀ b ∈ l, P a b ∧ P b a)
    (hl : ∀ b ∈ l, ∀ b' ∈ l, b ≠ b' → P b b') : ∀ b ∈ a :: l, ∀ b' ∈ a :: l, b ≠ b' → P b b' := by
  intro b hb b' hb' hbb
  cases List.mem_cons.mp hb with
  | inl he =>
    cases List.mem_cons.mp hb' with
    | inl he' => exact absurd (he.trans he'.symm) hbb
    | inr hb' => exact he ▸ (ha b' hb').1
  | inr hb =>
    cases List.mem_cons.mp hb' with
    | inl he' => exact he' ▸ (ha b hb).2
    | inr hb' => exact hl b hb b' hb' hbb

namespace Torn
variable {m n : Mem} {p : Option Addr} {l : List Addr}

theorem node (h : Torn m p l n) : ∀ a ∈ l, ∃ c, m.node a = some c := by
  induction h with
  | nil => simp
  | @cons m n a c l hc ok h ih =>
    intro b hb
    cases List.mem_cons.mp hb with
    | inl he => exact he ▸ ⟨c, hc⟩
    | inr hb =>
      obtain ⟨d, hd⟩ := ih b hb
      refine ⟨d, ?_⟩
      by_cases hba : b = a
      · rw [hba, release_node_self] at hd
        cases hd
      · rw [release_node_ne _ _ hba] at hd
        exact hd

theorem notMem {a : Addr} {c : Cycdata} (h : Torn (m.release a c) p l n) : a ∉ l := by
  intro ha
  obtain ⟨d, hd⟩ := h.node a ha
  rw [release_node_self] at hd
  cases hd

theorem chain (h : Torn m p l n) : Chain m.nxt p l := by
  induction h with
  | nil => rfl
  | @cons m n a c l hc ok h ih =>
    refine ⟨rfl, c.next, Mem.nxt_of_node hc, chain_congr (fun b hb => ?_) ih⟩
    have hba : b ≠ a := fun he => h.notMem (he ▸ hb)
    rw [Mem.nxt_eq, Mem.nxt_eq, release_node_ne m c hba]

theorem events {a : Addr} {c : Cycdata} (h : Torn (m.release a c) p l n) :
    l.flatMap (m.release a c).releasesOf = l.flatMap m.releasesOf := by
  refine List.flatMap_congr fun b hb => ?_
  have hba : b ≠ a := fun he => h.notMem (he ▸ hb)
  simp only [Mem.releasesOf, release_node_ne m c hba]
  rfl

theorem rest (h : Torn m p l n) : n.mainld = m.mainld ∧ n.shead = m.shead ∧ n.filehead = m.filehead ∧
    ∀ x, m.mainld = some x → n.logs.cell x = m.logs.cell x := by
  induction h with
  | nil => exact ⟨rfl, rfl, rfl, fun _ _ => rfl⟩
  | @cons m n a c l hc ok h ih =>
    obtain ⟨hmain, hsh, hfile, hlog⟩ := ih
    refine ⟨hmain, hsh, hfile, fun x hx => ?_⟩
    rw [hlog x hx]
    cases ho : ownLog m c with
    | none => simp [Mem.release, ho]
    | some y =>
      have hxy : x ≠ y := by
        intro he
        simp only [ownLog] at ho
        split_ifs at ho with hld
        exact hld (ho.trans (he ▸ hx.symm))
      simp [Mem.release, ho, Heap.cell_free_ne _ hxy]

/-- The handles along the way were open and apart from the start. -/
theorem handles (h : Torn m p l n) : HandlesOk m l := by
  induction h with
  | nil => exact ⟨by simp, by simp, by simp⟩
  | @cons m n a c l hc ok h ih =>
    have hne : ∀ b ∈ l, b ≠ a := fun b hb he => h.notMem (he ▸ hb)
    have hold : ∀ b ∈ l, ∀ d, m.node b = some d → (m.release a c).node b = some d := by
      intro b hb d hd
      rw [release_node_ne m c (hne b hb), hd]
    have hlog : ∀ b ∈ l, ∀ d, m.node b = some d → ∀ x, ownLog m d = some x → ownLog m c ≠ some x := by
      intro b hb d hd x hx hcx
      have hdx : d.ld = some x ∧ d.ld ≠ m.mainld := by
        simp only [ownLog] at hx
        split_ifs at hx with hld
        exact ⟨hx, hld⟩
      have hopen := (ih.ok b hb d (hold b hb d hd)).log x hdx.1 hdx.2
      simp [Mem.release, hcx] at hopen
    have hlib : ∀ b ∈ l, ∀ d, m.node b = some d → ∀ x, d.libdata.fdlib = some x →
        c.libdata.fdlib ≠ some x := by
      intro b hb d hd x hx hcx
      have hopen := (ih.ok b hb d (hold b hb d hd)).lib x hx
      simp [Mem.release, hcx] at hopen
    refine ⟨fun b hb d hd => ?_, ?_, ?_⟩
    · cases List.mem_cons.mp hb with
      | inl he =>
        rw [he, hc] at hd
        cases hd
        exact ok
      | inr hb =>
        have hr := ih.ok b hb d (hold b hb d hd)
        refine ⟨fun x hx hm => ?_, fun x hx => ?_⟩
        · have hopen := hr.log x hx hm
          cases ho : ownLog m c with
          | none => simpa [Mem.release, ho] using hopen
          | some y => exact open_of_free (by simpa [Mem.release, ho] using hopen)
        · have hopen := hr.lib x hx
          cases ho : c.libdata.fdlib with
          | none => simpa [Mem.release, ho] using hopen
          | some y => exact open_of_free (by simpa [Mem.release, ho] using hopen)
    · refine apart_cons (P := fun b b' => ∀ d d', m.node b = some d → m.node b' = some d' →
        ∀ x, ownLog m d = some x → ownLog m d' ≠ some x) (fun b hb => ⟨?_, ?_⟩) ?_
      · intro d d' hd hd' x hx hx'
        rw [hc] at hd
        cases hd
        exact hlog b hb d' hd' x hx' hx
      · intro d d' hd hd' x hx
        rw [hc] at hd'
        cases hd'
        exact hlog b hb d hd x hx
      · intro b hb b' hb' hbb d d' hd hd'
        exact ih.log b hb b' hb' hbb d d' (hold b hb d hd) (hold b' hb' d' hd')
    · refine apart_cons (P := fun b b' => ∀ d d', m.node b = some d → m.node b' = some d' →
        ∀ x, d.libdata.fdlib = some x → d'.libdata.fdlib ≠ some x) (fun b hb => ⟨?_, ?_⟩) ?_
      · intro d d' hd hd' x hx hx'
        rw [hc] at hd
        cases hd
        exact hlib b hb d' hd' x hx' hx
      · intro d d' hd hd' x hx
        rw [hc] at hd'
        cases hd'
        exact hlib b hb d hd x hx
      · intro b hb b' hb' hbb d d' hd hd'
        exact ih.lib b hb b' hb' hbb d d' (hold b hb d hd) (hold b' hb' d' hd')

end Torn

theorem torn_of_list {m : Mem} {p : Option Addr} {l : List Addr} (hl : Chain m.nxt p l)
    (hh : HandlesOk m l) : ∃ n, Torn m p l n := by
  induction l generalizing m p with
  | nil =>
    have hp : p = none := hl
    exact ⟨m, hp ▸ Torn.nil m⟩
  | cons a l ih =>
    have ha := (List.nodup_cons.mp (chain_nodup hl)).1
    obtain ⟨hp, r, hr, hrest⟩ := hl
    obtain ⟨c, hc, hcr⟩ := Option.map_eq_some_iff.mp hr
    have hc' : m.node a = some c := hc
    have hchain : Chain (m.release a c).nxt c.next l := by
      rw [hcr]
      refine chain_congr (fun b hb => ?_) hrest
      have hba : b ≠ a := fun he => ha (he ▸ hb)
      rw [Mem.nxt_eq, Mem.nxt_eq, release_node_ne m c hba]
    obtain ⟨n, hn⟩ := ih hchain (hh.freed hc' ha release_freed)
    exact ⟨n, hp ▸ Torn.cons hc' (hh.ok a (by simp) c hc') hn⟩

/-- The loop of gameover releases the nodes of the list in their order. -/
theorem walk_down (who : Nat) (sig : Bool) {m n : Mem} {p : Option Addr} {l : List Addr}
    (h : Torn m p l n) (tr : List Event) :
    ∃ xs, xs.filter Event.releases = l.flatMap m.releasesOf ∧ .exit ∉ xs ∧
      Goes (overBody dirch env) (walkAt who sig p, m.withTrace tr)
        (.gameover who sig .cychead, n.withTrace (tr ++ xs)) := by
  induction h generalizing tr with
  | nil => exact ⟨[], by simp, by simp, by simpa [walkAt] using Goes.refl _⟩
  | @cons m n a c l hc ok h ih =>
    obtain ⟨xs, hx, hxe, hg⟩ := node_down dirch env who sig hc ok tr
    obtain ⟨ys, hy, hye, hgs⟩ := ih (tr ++ xs)
    refine ⟨xs ++ ys, ?_, by simp [hxe, hye], ?_⟩
    · simp [hx, hy, h.events, Mem.releasesOf, hc]
    · rw [← List.append_assoc]
      exact hg.trans hgs

/-- The loop comes to the TimeDel of every node of the list. -/
theorem walk_comes (who : Nat) (sig : Bool) {m n : Mem} {p : Option Addr} {l : List Addr} (h : Torn m p l n)
    {a : Addr} (ha : a ∈ l) (tr : List Event) :
    ∃ q, Goes (overBody dirch env) (walkAt who sig p, m.withTrace tr) (.gameover who sig (.timeDel a), q) := by
  induction h generalizing tr with
  | nil => cases ha
  | @cons m n b c l hc ok h ih =>
    cases List.mem_cons.mp ha with
    | inl he =>
      subst he
      obtain ⟨xs, _, _, hg⟩ := before_down dirch env who sig hc ok.log tr
      exact ⟨_, hg⟩
    | inr ha =>
      obtain ⟨xs, _, _, hg⟩ := node_down dirch env who sig hc ok tr
      obtain ⟨q, hq⟩ := ih ha (tr ++ xs)
      exact ⟨q, hg.trans hq⟩

/-- gameover gets through the list or dies on the way. -/
theorem walk_outcome (who : Nat) (sig : Bool) (k : Nat) : ∀ (m : Mem) (p : Option Addr),
    m.nodes.live.length ≤ k → (∃ l n, Torn m p l n) ∨
      ∀ tr, Dies dirch env (walkAt who sig p) (m.withTrace tr) := by
  induction k with
  | zero =>
    intro m p hk
    cases p with
    | none => exact Or.inl ⟨[], m, Torn.nil m⟩
    | some a =>
      refine Or.inr (node_crash dirch env who sig ?_)
      intro h
      obtain ⟨c, hc, _⟩ := h
      have ha := (m.nodes.mem_live a).mpr (Option.isSome_iff_exists.mpr ⟨c, hc⟩)
      have hnil := List.length_eq_zero_iff.mp (Nat.le_zero.mp hk)
      simp [hnil] at ha
  | succ k ih =>
    intro m p hk
    cases p with
    | none => exact Or.inl ⟨[], m, Torn.nil m⟩
    | some a =>
      by_cases h : ∃ c, m.node a = some c ∧ HandleOk m c
      · obtain ⟨c, hc, ok⟩ := h
        have ha := (m.nodes.mem_live a).mpr (Option.isSome_iff_exists.mpr ⟨c, hc⟩)
        have hlen : (m.release a c).nodes.live.length ≤ k := by
          have he : (m.release a c).nodes.live = m.nodes.live.erase a := m.nodes.live_free a
          have hl := List.length_erase_of_mem ha
          rw [he]
          omega
        cases ih (m.release a c) c.next hlen with
        | inl ht =>
          obtain ⟨l, n, ht⟩ := ht
          exact Or.inl ⟨a :: l, n, Torn.cons hc ok ht⟩
        | inr hd =>
          refine Or.inr fun tr => ?_
          obtain ⟨xs, _, hxe, hg⟩ := node_down dirch env who sig hc ok tr
          exact Dies.of_goes dirch env xs hg rfl hxe (hd _)
      · exact Or.inr (node_crash dirch env who sig h)

/-- What gameover releases between its loop and mainld. -/
def ending (m : Mem) : List Event :=
  (if m.shead = none then [] else [.freeShead]) ++ freeFiledate m.filehead

theorem exit_notMem_ending (m : Mem) : .exit ∉ ending m := by
  intro he
  cases List.mem_append.mp he with
  | inl he =>
    split_ifs at he <;> simp at he
  | inr he =>
    obtain (⟨a, ha⟩ | ⟨a, ha⟩) := freeFiledate_events he
    all_goals cases ha

/-- The memory when gameover comes to the last logDel. -/
def Mem.ended (m : Mem) : Mem := { m with cychead := none, cycheadnext := none, shead := none, filehead := [] }

theorem ending_run (who : Nat) (sig : Bool) (m : Mem) (tr : List Event) :
    Goes (overBody dirch env) (.gameover who sig .cychead, m.withTrace tr)
      (.gameover who sig .logDel, m.ended.withTrace (tr ++ ending m)) := by
  let m₁ : Mem := { m with cychead := none }
  let m₂ : Mem := { m₁ with cycheadnext := none }
  let m₃ : Mem := { m₂ with shead := none }
  have h1 : Goes (overBody dirch env) (.gameover who sig .cychead, m.withTrace tr)
      (.gameover who sig .cycheadnext, m₁.withTrace tr) := Goes.one rfl
  have h2 : Goes (overBody dirch env) (.gameover who sig .cycheadnext, m₁.withTrace tr)
      (.gameover who sig .shead, m₂.withTrace tr) := Goes.one rfl
  have h3 : Goes (overBody dirch env) (.gameover who sig .shead, m₂.withTrace tr)
      (.gameover who sig .filehead, m₃.withTrace (tr ++ if m.shead = none then [] else [.freeShead])) := by
    refine Goes.one ?_
    cases hs : m.shead with
    | none => simp [Machine.soloBody, daemon, overStep, m₃, m₂, m₁, Mem.withTrace, hs]
    | some d => simp [Machine.soloBody, daemon, overStep, m₃, m₂, m₁, Mem.withTrace, hs, Mem.emit]
  have h4 : Goes (overBody dirch env)
      (.gameover who sig .filehead, m₃.withTrace (tr ++ if m.shead = none then [] else [.freeShead]))
      (.gameover who sig .logDel, m.ended.withTrace (tr ++ ending m)) := by
    refine Goes.one ?_
    simp only [ending, ← List.append_assoc]
    rfl
  exact ((h1.trans h2).trans h3).trans h4

theorem end_leaves (who : Nat) (sig : Bool) {m : Mem} {x : Addr} (hx : m.mainld = some x)
    (ho : (m.logs.cell x).isSome) (tr : List Event) :
    ∃ m', Leaves (overBody dirch env) (.gameover who sig .cychead, m.withTrace tr) (false, m') ∧
      m'.trace = tr ++ ending m ++ [.logDel x, .exit] := by
  obtain ⟨u, hu⟩ := Option.isSome_iff_exists.mp ho
  let q : Mem := { m.ended.withTrace (tr ++ ending m ++ [.logDel x]) with logs := m.logs.free x }
  have h1 : Goes (overBody dirch env) (.gameover who sig .logDel, m.ended.withTrace (tr ++ ending m))
      (.gameover who sig .mainld, q) := by
    refine Goes.one ?_
    simp [Machine.soloBody, daemon, overStep, Mem.ended, Mem.withTrace, hx, TimeTask.logDel, hu, q, Mem.emit]
  have h2 : Goes (overBody dirch env) (.gameover who sig .mainld, q)
      (.gameover who sig .exit, { q with mainld := none }) := Goes.one rfl
  have h3 : Leaves (overBody dirch env) (.gameover who sig .exit, { q with mainld := none })
      (false, { q with mainld := none }.emit [.exit]) := Leaves.now rfl
  refine ⟨_, Leaves.of_goes (((ending_run dirch env who sig m tr).trans h1).trans h2) h3, ?_⟩
  simp [q, Mem.emit, Mem.withTrace]

theorem end_dies (who : Nat) (sig : Bool) {m : Mem} {x : Addr} (hx : m.mainld = some x)
    (hc : m.logs.cell x = none) (tr : List Event) : Dies dirch env (.gameover who sig .cychead) (m.withTrace tr) := by
  refine Dies.of_goes dirch env (ending m) (ending_run dirch env who sig m tr) rfl (exit_notMem_ending m) ?_
  refine ⟨m.ended.withTrace (tr ++ ending m), [], Leaves.now ?_, by simp [Mem.withTrace], by simp⟩
  simp [Machine.soloBody, daemon, overStep, Mem.ended, Mem.withTrace, hx, TimeTask.logDel, hc, crash]

end Run

/-- The events release all that `m` holds, each thing once, and end with mainld and exit. -/
structure ReleasedAll (m : Mem) (es : List Event) : Prop where
  nodes : ∀ a ∈ m.nodes.live, es.count (.free a) = 1
  logs : ∀ a c l, m.node a = some c → ownLog m c = some l → es.count (.logDel l) = 1
  libs : ∀ h ∈ m.libs.live, es.count (.dlclose h) = 1
  shead : m.shead ≠ none → es.count .freeShead = 1
  filehead : ∀ e ∈ freeFiledate m.filehead, es.count e = 1
  mainld : ∃ x pre, m.mainld = some x ∧ es = pre ++ [.logDel x, .exit] ∧ .logDel x ∉ pre

/-- gameover, entered in `m` and run without signals, ends the process with everything released. -/
def GameoverReleases (dirch : List Byte) (env : Frame → Ans) (who : Nat) (sig : Bool) (m : Mem) : Prop :=
  ∃ m' es, Leaves (overBody dirch env) (.gameover who sig .log, m) (false, m') ∧
    m'.trace = m.trace ++ es ∧ ReleasedAll m es

/-- There is a module list, it holds every node and every library, its handles are open and
apart, and the main log is open and stays so while gameover writes its line to it. -/
structure Releasable (lost : Bool) (m : Mem) : Prop where
  list : ∃ l, l ≠ [] ∧ m.ListIs l ∧ HandlesOk m l ∧ (∀ a ∈ m.nodes.live, a ∈ l) ∧
    ∀ h ∈ m.libs.live, ∃ a ∈ l, ∃ c, m.node a = some c ∧ c.libdata.fdlib = some h
  mainld : ∃ x, m.mainld = some x ∧ (m.logs.cell x).isSome
  line : lost = false
  filehead : (freeFiledate m.filehead).Nodup

theorem count_flatMap_one {A B : Type*} [DecidableEq B] {f : A → List B} {l : List A} {a : A} {b : B}
    (hl : l.Nodup) (ha : a ∈ l) (h1 : (f a).count b = 1) (h0 : ∀ x ∈ l, x ≠ a → b ∉ f x) :
    (l.flatMap f).count b = 1 := by
  obtain ⟨s, t, hst⟩ := List.append_of_mem ha
  subst hst
  have hs : (s.flatMap f).count b = 0 := by
    refine List.count_eq_zero.mpr fun hm => ?_
    obtain ⟨x, hx, hbx⟩ := List.mem_flatMap.mp hm
    have hne : x ≠ a := fun he => (List.nodup_append.mp hl).2.2 x hx a (by simp) he
    exact h0 x (by simp [hx]) hne hbx
  have ht : (t.flatMap f).count b = 0 := by
    refine List.count_eq_zero.mpr fun hm => ?_
    obtain ⟨x, hx, hbx⟩ := List.mem_flatMap.mp hm
    have hnd := (List.nodup_append.mp hl).2.1
    have hne : x ≠ a := fun he => (List.nodup_cons.mp hnd).1 (he ▸ hx)
    exact h0 x (by simp [hx]) hne hbx
  simp [List.flatMap_append, List.flatMap_cons, hs, ht, h1]

theorem ownLog_ne_mainld {m : Mem} {c : Cycdata} {x : Addr} (h : ownLog m c = some x) : m.mainld ≠ some x := by
  simp only [ownLog] at h
  split_ifs at h with hld
  exact fun hm => hld (h.trans hm.symm)

section Counts
variable {m : Mem} {l : List Addr}

theorem mem_releasesOf {a : Addr} {e : Event} (he : e ∈ m.releasesOf a) :
    ∃ c, m.node a = some c ∧ ((∃ x, ownLog m c = some x ∧ e = .logDel x) ∨
      (∃ h, c.libdata.fdlib = some h ∧ e = .dlclose h) ∨ e = .free a) := by
  cases hc : m.node a with
  | none => simp [Mem.releasesOf, hc] at he
  | some c =>
    refine ⟨c, rfl, ?_⟩
    simp only [Mem.releasesOf, hc, releaseEvents, List.mem_append, List.mem_map, Option.mem_toList,
      List.mem_singleton] at he
    cases he with
    | inl he =>
      cases he with
      | inl he =>
        obtain ⟨x, hx, hex⟩ := he
        exact Or.inl ⟨x, hx, hex.symm⟩
      | inr he =>
        obtain ⟨x, hx, hex⟩ := he
        exact Or.inr (Or.inl ⟨x, hx, hex.symm⟩)
    | inr he => exact Or.inr (Or.inr he)

theorem count_free (hl : l.Nodup) {a : Addr} {c : Cycdata} (ha : a ∈ l) (hc : m.node a = some c) :
    (l.flatMap m.releasesOf).count (.free a) = 1 := by
  refine count_flatMap_one hl ha ?_ fun x _ hxa hm => ?_
  · simp [Mem.releasesOf, hc, count_free_releaseEvents]
  · obtain ⟨d, _, hd⟩ := mem_releasesOf hm
    obtain (⟨y, _, hy⟩ | ⟨y, _, hy⟩ | hy) := hd
    · cases hy
    · cases hy
    · exact hxa (Event.free.inj hy).symm

theorem count_logDel (hl : l.Nodup) (hh : HandlesOk m l) {a x : Addr} {c : Cycdata} (ha : a ∈ l)
    (hc : m.node a = some c) (hx : ownLog m c = some x) : (l.flatMap m.releasesOf).count (.logDel x) = 1 := by
  refine count_flatMap_one hl ha ?_ fun y hyl hya hm => ?_
  · cases hf : c.libdata.fdlib <;> simp [Mem.releasesOf, hc, releaseEvents, hx, hf]
  · obtain ⟨d, hd, hde⟩ := mem_releasesOf hm
    obtain (⟨z, hz, he⟩ | ⟨z, _, he⟩ | he) := hde
    · cases he
      exact hh.log a ha y hyl (Ne.symm hya) c d hc hd x hx hz
    · cases he
    · cases he

theorem count_dlclose (hl : l.Nodup) (hh : HandlesOk m l) {a x : Addr} {c : Cycdata} (ha : a ∈ l)
    (hc : m.node a = some c) (hx : c.libdata.fdlib = some x) :
    (l.flatMap m.releasesOf).count (.dlclose x) = 1 := by
  refine count_flatMap_one hl ha ?_ fun y hyl hya hm => ?_
  · cases ho : ownLog m c <;> simp [Mem.releasesOf, hc, releaseEvents, hx, ho]
  · obtain ⟨d, hd, hde⟩ := mem_releasesOf hm
    obtain (⟨z, _, he⟩ | ⟨z, hz, he⟩ | he) := hde
    · cases he
    · cases he
      exact hh.lib a ha y hyl (Ne.symm hya) c d hc hd x hx hz
    · cases he

end Counts

section Run
variable (dirch : List Byte) (env : Frame → Ans)

theorem logLog_goes (who : Nat) (sig : Bool) {m q : Mem}
    (h : m.logLog (env (.gameover who sig .log)).lost = some q) :
    Goes (overBody dirch env) (.gameover who sig .log, m) (.gameover who sig .start, q) := by
  refine Goes.one ?_
  simp [Machine.soloBody, daemon, overStep, h]

theorem start_goes (who : Nat) (sig : Bool) {q : Mem} (hq : q.cychead ≠ none) :
    Goes (overBody dirch env) (.gameover who sig .start, q) (walkAt who sig q.cychead, q) := by
  refine Goes.one ?_
  cases hc : q.cychead with
  | none => exact absurd hc hq
  | some a => simp [Machine.soloBody, daemon, overStep, hc, walkAt]

/-- What gameover has released when it has come through the list and to exit. -/
theorem gameover_trace (who : Nat) (sig : Bool) {m n : Mem} {l : List Addr} {x : Addr}
    (ht : Torn m m.cychead l n) (hne : m.cychead ≠ none) (hx : m.mainld = some x)
    (ho : (m.logs.cell x).isSome) (hlost : (env (.gameover who sig .log)).lost = false) :
    ∃ m' xs, Leaves (overBody dirch env) (.gameover who sig .log, m) (false, m') ∧
      m'.trace = m.trace ++ (xs ++ ending m ++ [.logDel x, .exit]) ∧
      xs.filter Event.releases = l.flatMap m.releasesOf := by
  obtain ⟨u, hu⟩ := Option.isSome_iff_exists.mp ho
  obtain ⟨hmain, hsh, hfile, hlog⟩ := ht.rest
  obtain ⟨xs, hxs, _, hg⟩ := walk_down dirch env who sig ht m.trace
  have hend : ending n = ending m := by simp only [ending, hsh, hfile]
  have hon : (n.logs.cell x).isSome := by rw [hlog x hx]; exact ho
  obtain ⟨m', hl, htr⟩ := end_leaves dirch env who sig (hmain.trans hx) hon (m.trace ++ xs)
  have hlog : m.logLog (env (.gameover who sig .log)).lost = some m := by simp [Mem.logLog, hx, hu, hlost]
  have h1 := logLog_goes dirch env who sig hlog
  have h2 := start_goes dirch env who sig hne
  refine ⟨m', xs, Leaves.of_goes ((h1.trans h2).trans hg) hl, ?_, hxs⟩
  rw [htr, hend]
  simp

theorem Dies.not_releases {dirch : List Byte} {env : Frame → Ans} {who : Nat} {sig : Bool} {m : Mem}
    (hd : Dies dirch env (.gameover who sig .log) m) : ¬ GameoverReleases dirch env who sig m := by
  intro h
  obtain ⟨m', es, hl, htr, hr⟩ := h
  obtain ⟨q, xs, hq, hqt, hx⟩ := hd
  obtain ⟨x, pre, _, hes, _⟩ := hr.mainld
  have he := Leaves.unique hl hq
  simp only [Prod.mk.injEq, true_and] at he
  rw [← he, htr] at hqt
  rw [← List.append_cancel_left hqt, hes] at hx
  simp at hx

theorem not_releases_of_empty {who : Nat} {sig : Bool} {m q : Mem}
    (h : m.logLog (env (.gameover who sig .log)).lost = some q) (hq : q.cychead = none) :
    ¬ GameoverReleases dirch env who sig m := by
  intro hg
  obtain ⟨m', es, hl, _, _⟩ := hg
  have hret : Leaves (overBody dirch env) (.gameover who sig .start, q) (true, q) := by
    refine Leaves.now ?_
    simp [Machine.soloBody, daemon, overStep, hq]
  have he := Leaves.unique hl (Leaves.of_goes (logLog_goes dirch env who sig h) hret)
  simp at he

/-- When gameover releases everything the main log is open, its line is written and the list
is torn down node by node. -/
theorem torn_of_releases {who : Nat} {sig : Bool} {m : Mem} (h : GameoverReleases dirch env who sig m) :
    (∃ x, m.mainld = some x ∧ (m.logs.cell x).isSome) ∧ (env (.gameover who sig .log)).lost = false ∧
      m.cychead ≠ none ∧ ∃ l n, Torn m m.cychead l n := by
  obtain ⟨_, _, _, _, hr⟩ := id h
  obtain ⟨x, _, hx, _, _⟩ := hr.mainld
  cases hcell : m.logs.cell x with
  | none =>
    refine absurd h (Dies.not_releases ⟨m, [], Leaves.now ?_, by simp, by simp⟩)
    simp [Machine.soloBody, daemon, overStep, Mem.logLog, hx, hcell, crash]
  | some u =>
    cases hlost : (env (.gameover who sig .log)).lost with
    | true =>
      let q : Mem := { m with logs := m.logs.free x }.emit [.logDel x]
      have hlog : m.logLog (env (.gameover who sig .log)).lost = some q := by
        simp [Mem.logLog, hx, hcell, hlost, logDel, q]
      by_cases hc : q.cychead = none
      · exact absurd h (not_releases_of_empty dirch env hlog hc)
      · have hgo := (logLog_goes dirch env who sig hlog).trans (start_goes dirch env who sig hc)
        have hd : Dies dirch env (walkAt who sig q.cychead) q := by
          cases walk_outcome dirch env who sig _ q q.cychead (Nat.le_refl _) with
          | inl ht =>
            obtain ⟨l, n, ht⟩ := ht
            obtain ⟨xs, _, hxe, hg⟩ := walk_down dirch env who sig ht q.trace
            obtain ⟨hmain, _, _, hcl⟩ := ht.rest
            have hqx : q.logs.cell x = none := by simp [q, Mem.emit]
            have hn : n.logs.cell x = none := (hcl x hx).trans hqx
            exact Dies.of_goes dirch env xs hg rfl hxe (end_dies dirch env who sig (hmain.trans hx) hn _)
          | inr hd => exact hd q.trace
        exact absurd h (Dies.not_releases (Dies.of_goes dirch env [.logDel x] hgo rfl (by simp) hd))
    | false =>
      have hlog : m.logLog (env (.gameover who sig .log)).lost = some m := by
        simp [Mem.logLog, hx, hcell, hlost]
      by_cases hc : m.cychead = none
      · exact absurd h (not_releases_of_empty dirch env hlog hc)
      · refine ⟨⟨x, hx, by simp [hcell]⟩, rfl, hc, ?_⟩
        have hgo := (logLog_goes dirch env who sig hlog).trans (start_goes dirch env who sig hc)
        cases walk_outcome dirch env who sig _ m m.cychead (Nat.le_refl _) with
        | inl ht => exact ht
        | inr hd =>
          have hdm := Dies.of_goes dirch env [] hgo (by simp) (by simp) (hd m.trace)
          exact absurd h (Dies.not_releases hdm)

end Run

theorem count_run {m : Mem} {l : List Addr} {xs : List Event} {x : Addr} {e : Event}
    (hxs : xs.filter Event.releases = l.flatMap m.releasesOf) (he : e.releases = true) :
    (xs ++ ending m ++ [Event.logDel x, Event.exit]).count e =
      (l.flatMap m.releasesOf).count e + (ending m).count e + [Event.logDel x, .exit].count e := by
  have hc : xs.count e = (l.flatMap m.releasesOf).count e := by
    rw [← hxs, List.count_filter he]
  rw [List.count_append, List.count_append, hc]

theorem mem_ending {m : Mem} {e : Event} (he : e ∈ ending m) :
    e = .freeShead ∨ (∃ a, e = .freeOne a) ∨ ∃ a, e = .freeFile a := by
  cases List.mem_append.mp he with
  | inl he =>
    split_ifs at he
    · simp at he
    · exact Or.inl (List.mem_singleton.mp he)
  | inr he => exact Or.inr (freeFiledate_events he)

theorem releasedAll_of_list {m : Mem} {l : List Addr} {xs : List Event} {x : Addr}
    (hxs : xs.filter Event.releases = l.flatMap m.releasesOf) (hl : l.Nodup) (hh : HandlesOk m l)
    (hnodes : ∀ a ∈ m.nodes.live, a ∈ l)
    (hlibs : ∀ h ∈ m.libs.live, ∃ a ∈ l, ∃ c, m.node a = some c ∧ c.libdata.fdlib = some h)
    (hx : m.mainld = some x) (hfile : (freeFiledate m.filehead).Nodup) :
    ReleasedAll m (xs ++ ending m ++ [.logDel x, .exit]) := by
  have hend : ∀ e : Event, e ≠ .freeShead → (∀ a, e ≠ .freeOne a) → (∀ a, e ≠ .freeFile a) →
      (ending m).count e = 0 := by
    intro e h1 h2 h3
    refine List.count_eq_zero.mpr fun he => ?_
    obtain (h | ⟨a, h⟩ | ⟨a, h⟩) := mem_ending he
    · exact h1 h
    · exact h2 a h
    · exact h3 a h
  have hnode : ∀ e : Event, (∀ y, e ≠ .logDel y) → (∀ y, e ≠ .dlclose y) → (∀ y, e ≠ .free y) →
      (l.flatMap m.releasesOf).count e = 0 := by
    intro e h1 h2 h3
    refine List.count_eq_zero.mpr fun he => ?_
    obtain ⟨a, _, ha⟩ := List.mem_flatMap.mp he
    obtain ⟨c, _, hc⟩ := mem_releasesOf ha
    obtain (⟨y, _, hy⟩ | ⟨y, _, hy⟩ | hy) := hc
    · exact h1 y hy
    · exact h2 y hy
    · exact h3 a hy
  refine ⟨fun a ha => ?_, fun a c y hc hy => ?_, fun h hh' => ?_, fun hs => ?_, fun e he => ?_, ?_⟩
  · obtain ⟨c, hc⟩ := Option.isSome_iff_exists.mp ((m.nodes.mem_live a).mp ha)
    rw [count_run (e := .free a) hxs rfl, count_free hl (hnodes a ha) hc, hend _ (by simp) (by simp) (by simp)]
    simp
  · have ha := hnodes a ((m.nodes.mem_live a).mpr (Option.isSome_iff_exists.mpr ⟨c, hc⟩))
    have hyx : x ≠ y := fun he => ownLog_ne_mainld hy (he ▸ hx)
    rw [count_run (e := .logDel y) hxs rfl, count_logDel hl hh ha hc hy, hend _ (by simp) (by simp) (by simp)]
    simp [hyx]
  · obtain ⟨a, ha, c, hc, hf⟩ := hlibs h hh'
    rw [count_run (e := .dlclose h) hxs rfl, count_dlclose hl hh ha hc hf, hend _ (by simp) (by simp) (by simp)]
    simp
  · have hf : (freeFiledate m.filehead).count .freeShead = 0 := by
      refine List.count_eq_zero.mpr fun he => ?_
      obtain (⟨a, h⟩ | ⟨a, h⟩) := freeFiledate_events he
      all_goals cases h
    rw [count_run (e := .freeShead) hxs rfl, hnode _ (by simp) (by simp) (by simp)]
    simp [ending, hs, hf]
  · have hone : (freeFiledate m.filehead).count e = 1 := List.count_eq_one_of_mem hfile he
    obtain (⟨a, h⟩ | ⟨a, h⟩) := freeFiledate_events he
    · have hrel : e.releases = true := by rw [h]; rfl
      rw [count_run hxs hrel, hnode e (by simp [h]) (by simp [h]) (by simp [h]), ending, List.count_append, hone]
      split_ifs <;> simp [h]
    · have hrel : e.releases = true := by rw [h]; rfl
      rw [count_run hxs hrel, hnode e (by simp [h]) (by simp [h]) (by simp [h]), ending, List.count_append, hone]
      split_ifs <;> simp [h]
  · refine ⟨x, xs ++ ending m, hx, rfl, fun hm => ?_⟩
    cases List.mem_append.mp hm with
    | inl hm =>
      have hf : Event.logDel x ∈ xs.filter Event.releases := List.mem_filter.mpr ⟨hm, rfl⟩
      rw [hxs] at hf
      obtain ⟨a, _, ha⟩ := List.mem_flatMap.mp hf
      obtain ⟨c, _, hc⟩ := mem_releasesOf ha
      obtain (⟨y, hy, he⟩ | ⟨y, _, he⟩ | he) := hc
      · cases he
        exact ownLog_ne_mainld hy hx
      · cases he
      · cases he
    | inr hm =>
      obtain (h | ⟨a, h⟩ | ⟨a, h⟩) := mem_ending hm
      all_goals cases h

/-- An uninterrupted gameover ends the process with everything released exactly when it finds a
complete module list and an open main log. -/
theorem gameover_releases_iff (dirch : List Byte) (env : Frame → Ans) (who : Nat) (sig : Bool) (m : Mem) :
    GameoverReleases dirch env who sig m ↔ Releasable (env (.gameover who sig .log)).lost m := by
  constructor
  · intro h
    obtain ⟨⟨x, hx, ho⟩, hlost, hne, l, n, ht⟩ := torn_of_releases dirch env h
    obtain ⟨m', es, hl, htr, hr⟩ := h
    obtain ⟨q, xs, hq, hqt, hxs⟩ := gameover_trace dirch env who sig ht hne hx ho hlost
    have he := Leaves.unique hl hq
    simp only [Prod.mk.injEq, true_and] at he
    rw [← he, htr] at hqt
    have hes := List.append_cancel_left hqt
    have hnode : ∀ e ∈ es, e.releases = true → e ∉ ending m → e ≠ .logDel x → e ∈ l.flatMap m.releasesOf := by
      intro e hm hrel hend hld
      rw [hes] at hm
      have hex : e ≠ .exit := fun h => by rw [h] at hrel; cases hrel
      simp only [List.mem_append, List.mem_cons, List.not_mem_nil, or_false] at hm
      obtain ((hm | hm) | (hm | hm)) := hm
      · rw [← hxs]
        exact List.mem_filter.mpr ⟨hm, hrel⟩
      · exact absurd hm hend
      · exact absurd hm hld
      · exact absurd hm hex
    have hnot : ∀ e : Event, e ≠ .freeShead → (∀ a, e ≠ .freeOne a) → (∀ a, e ≠ .freeFile a) → e ∉ ending m := by
      intro e h1 h2 h3 he
      obtain (h | ⟨a, h⟩ | ⟨a, h⟩) := mem_ending he
      · exact h1 h
      · exact h2 a h
      · exact h3 a h
    refine ⟨⟨l, ?_, ht.chain, ht.handles, fun a ha => ?_, fun h hh => ?_⟩, ⟨x, hx, ho⟩, hlost, ?_⟩
    · intro hnil
      have hc := ht.chain
      rw [hnil] at hc
      exact hne hc
    · have hm : Event.free a ∈ es := List.count_pos_iff.mp (by rw [hr.nodes a ha]; omega)
      have hf := hnode _ hm rfl (hnot _ (by simp) (by simp) (by simp)) (by simp)
      obtain ⟨b, hb, hbe⟩ := List.mem_flatMap.mp hf
      obtain ⟨c, _, hc⟩ := mem_releasesOf hbe
      obtain (⟨y, _, hy⟩ | ⟨y, _, hy⟩ | hy) := hc
      · cases hy
      · cases hy
      · cases hy
        exact hb
    · have hm : Event.dlclose h ∈ es := List.count_pos_iff.mp (by rw [hr.libs h hh]; omega)
      have hf := hnode _ hm rfl (hnot _ (by simp) (by simp) (by simp)) (by simp)
      obtain ⟨b, hb, hbe⟩ := List.mem_flatMap.mp hf
      obtain ⟨c, hc, hce⟩ := mem_releasesOf hbe
      obtain (⟨y, _, hy⟩ | ⟨y, hy, hye⟩ | hy) := hce
      · cases hy
      · cases hye
        exact ⟨b, hb, c, hc, hy⟩
      · cases hy
    · refine List.nodup_iff_count_le_one.mpr fun e => ?_
      by_cases hm : e ∈ freeFiledate m.filehead
      · have h1 := hr.filehead e hm
        have hle : (freeFiledate m.filehead).count e ≤ es.count e := by
          rw [hes, ending]
          simp only [List.count_append]
          omega
        omega
      · rw [List.count_eq_zero_of_not_mem hm]
        omega
  · intro h
    obtain ⟨l, hne, hl, hh, hnodes, hlibs⟩ := h.list
    obtain ⟨x, hx, ho⟩ := h.mainld
    obtain ⟨n, ht⟩ := torn_of_list hl hh
    have hc : m.cychead ≠ none := by
      intro hc
      have hl' : Chain m.nxt m.cychead l := hl
      rw [hc] at hl'
      exact hne (chain_none hl')
    obtain ⟨q, xs, hq, hqt, hxs⟩ := gameover_trace dirch env who sig ht hc hx ho h.line
    exact ⟨q, _, hq, hqt, releasedAll_of_list hxs (chain_nodup hl) hh hnodes hlibs hx h.filehead⟩

def readFileFails : List (Label Ans Signal) :=
  List.replicate 3 (.run { world (fun _ => some 0) with files := none })

/-- The configuration and the main log are not released, gameover returns to main. -/
theorem gameover_returns_after_readFile : ∃ c : Config Frame Mem,
    (daemon []).Reach (fun _ _ => True) daemonStart c ∧ c.stack = [.gameover 0 false .log, .main .done] ∧
      c.mem.shead ≠ none ∧ ∀ env, ¬ GameoverReleases [] env 0 false c.mem := by
  let m : Mem := { Mem.init with shead := some [97, 0] }
  have hx : (daemon []).exec readFileFails daemonStart = some ⟨[.gameover 0 false .log, .main .done], m⟩ := rfl
  refine ⟨_, Machine.reach_of_exec readFileFails (fun _ _ _ => trivial) Machine.Reach.refl hx, rfl, ?_, fun env => ?_⟩
  · simp [m]
  · have hlog : ∃ q, m.logLog (env (.gameover 0 false .log)).lost = some q ∧ q.cychead = none := by
      cases hl : (env (.gameover 0 false .log)).lost with
      | true => exact ⟨_, rfl, rfl⟩
      | false => exact ⟨_, rfl, rfl⟩
    obtain ⟨q, hq, hqc⟩ := hlog
    exact not_releases_of_empty [] env hq hqc

end TimeTask
