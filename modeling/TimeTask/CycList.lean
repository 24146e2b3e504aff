import TimeTask.Types

/-! cycmake and freeCycdata on the module list. The statements that a signal can
fall between are definitions of their own; the functions compose them. -/
namespace TimeTask
open Lib

/-- `malloc`, `memset` and `tem->fdate=dat`. -/
def cycmakeMalloc (dat : Option Addr) (m : Mem) : Addr × Mem :=
  (m.nodes.brk, { m with nodes := m.nodes.alloc { Cycdata.zero with fdate := dat } })

/-- The first assignment of either branch: to cychead, or to `cycheadnext->next`. -/
def linkHead (tem : Addr) (m : Mem) : Option Mem :=
  match m.cychead with
  | none => some { m with cychead := some tem }
  | some _ =>
    match m.cycheadnext with
    | none => none
    | some t =>
      match m.node t with
      | none => none
      | some _ => some (m.update t fun c => { c with next := some tem })

def linkTail (tem : Addr) (m : Mem) : Mem := { m with cycheadnext := some tem }

/-- `ok` is what malloc answers. The result is `none` when a released node is written. -/
def cycmake (ok : Bool) (dat : Option Addr) (m : Mem) : Option (Option Addr × Mem) :=
  if ok then
    let (tem, m) := cycmakeMalloc dat m
    (linkHead tem m).map fun m => (some tem, linkTail tem m)
  else some (none, m)

/-- The loop of freeCycdata: the node BB before cdata, once AA has reached cdata. -/
def freeSearch (m : Mem) (cdata : Addr) : Nat → Option Addr → Option Addr → Option (Option (Option Addr))
  | _, none, _ => some none
  | 0, some _, _ => none
  | n + 1, some AA, BB =>
    if AA = cdata then some (some BB)
    else
      match m.nxt AA with
      | none => none
      | some r => freeSearch m cdata n r (some AA)

def unlinkCycdata (cdata : Addr) (BB : Option Addr) (m : Mem) : Option Mem :=
  match BB with
  | none =>
    match m.cychead with
    | none => none
    | some h => (m.node h).map fun c => { m with cychead := c.next }
  | some b =>
    match m.node cdata, m.node b with
    | some c, some _ => some (m.update b fun d => { d with next := c.next })
    | _, _ => none

def freeCleanup : List Cleanup := [.fdate, .logDel, .ld, .dlclose, .fdlib, .next, .free]

def freeCycdata (cdata : Option Addr) (m : Mem) : Option (Int × Mem) :=
  match cdata with
  | none => some (-1, m)
  | some a =>
    match freeSearch m a m.nodes.brk m.cychead none with
    | none => none
    | some none => some (-2, m)
    | some (some BB) =>
      ((unlinkCycdata a BB m).bind (Cleanup.run a freeCleanup)).map fun m => (0, m)

structure HandleOk (m : Mem) (c : Cycdata) : Prop where
  log : ∀ l, c.ld = some l → c.ld ≠ m.mainld → (m.logs.cell l).isSome
  lib : ∀ h, c.libdata.fdlib = some h → (m.libs.cell h).isSome

/-- The log handle of a node that is not the shared main log. -/
def ownLog (m : Mem) (c : Cycdata) : Option Addr := if c.ld = m.mainld then none else c.ld

def releaseEvents (m : Mem) (a : Addr) (c : Cycdata) : List Event :=
  (ownLog m c).toList.map .logDel ++ c.libdata.fdlib.toList.map .dlclose ++ [.free a]

/-- The memory after the node `a` with content `c` and its handles were released. -/
def Mem.release (m : Mem) (a : Addr) (c : Cycdata) : Mem :=
  { m with
    nodes := m.nodes.free a
    logs := match ownLog m c with
      | none => m.logs
      | some l => m.logs.free l
    libs := match c.libdata.fdlib with
      | none => m.libs
      | some h => m.libs.free h
    trace := m.trace ++ releaseEvents m a c }

theorem Cleanup.run_append (a : Addr) (ss ts : List Cleanup) (m : Mem) :
    Cleanup.run a (ss ++ ts) m = (Cleanup.run a ss m).bind (Cleanup.run a ts) := by
  induction ss generalizing m with
  | nil => rfl
  | cons s ss ih =>
    cases h : s.exec a m with
    | none => simp [Cleanup.run, h]
    | some m' => simpa [Cleanup.run, h] using ih m'

theorem cleanup_log {m : Mem} {a : Addr} {c : Cycdata} (hc : m.node a = some c)
    (ok : ∀ l, c.ld = some l → c.ld ≠ m.mainld → (m.logs.cell l).isSome) : Cleanup.run a [.fdate, .logDel, .ld] m =
      some { m with
        nodes := m.nodes.modify a fun d => { d with fdate := none, ld := none }
        logs := match ownLog m c with
          | none => m.logs
          | some l => m.logs.free l
        trace := m.trace ++ (ownLog m c).toList.map .logDel } := by
  have hn : m.nodes.cell a = some c := hc
  by_cases hmain : c.ld = m.mainld
  · simp [Cleanup.run, Cleanup.exec, Mem.node, Mem.update, hn, ownLog, hmain, Heap.modify_modify]
    rfl
  · cases hl : c.ld with
    | none =>
      rw [hl] at hmain
      simp [Cleanup.run, Cleanup.exec, Mem.node, Mem.update, hn, hl, ownLog, hmain,
        Heap.modify_modify]
      rfl
    | some l =>
      obtain ⟨u, hu⟩ := Option.isSome_iff_exists.mp (ok l hl hmain)
      rw [hl] at hmain
      simp [Cleanup.run, Cleanup.exec, Mem.node, Mem.update, Mem.emit, hn, hl, ownLog, hmain,
        logDel, hu, Heap.modify_modify]
      rfl

theorem cleanup_lib {m : Mem} {a : Addr} {c : Cycdata} (hc : m.node a = some c)
    (ok : ∀ h, c.libdata.fdlib = some h → (m.libs.cell h).isSome) :
    Cleanup.run a [.dlclose, .fdlib, .next, .free] m =
      some { m with
        nodes := m.nodes.free a
        libs := match c.libdata.fdlib with
          | none => m.libs
          | some h => m.libs.free h
        trace := m.trace ++ (c.libdata.fdlib.toList.map .dlclose ++ [.free a]) } := by
  have hn : m.nodes.cell a = some c := hc
  cases hf : c.libdata.fdlib with
  | none =>
    simp [Cleanup.run, Cleanup.exec, Mem.node, Mem.update, Mem.emit, hn, hf, Heap.free_modify]
  | some h =>
    obtain ⟨u, hu⟩ := Option.isSome_iff_exists.mp (ok h hf)
    simp [Cleanup.run, Cleanup.exec, Mem.node, Mem.update, Mem.emit, hn, hf, dlclose, hu,
      Heap.free_modify]

theorem freeCleanup_run {m : Mem} {a : Addr} {c : Cycdata} (hc : m.node a = some c)
    (ok : HandleOk m c) : Cleanup.run a freeCleanup m = some (m.release a c) := by
  have hsplit : freeCleanup = [.fdate, .logDel, .ld] ++ [.dlclose, .fdlib, .next, .free] := rfl
  have hn : m.nodes.cell a = some c := hc
  rw [hsplit, Cleanup.run_append, cleanup_log hc ok.log, Option.bind_some]
  rw [cleanup_lib (c := { c with fdate := none, ld := none })]
  · simp [Mem.release, releaseEvents, Heap.free_modify]
  · simp [Mem.node, hn]
  · exact ok.lib

/-- Everything of a node but its link. -/
def Mem.body (m : Mem) (a : Addr) : Option Cycdata := (m.node a).map fun c => { c with next := none }

theorem body_update_next (m : Mem) (b : Addr) (r : Option Addr) :
    (m.update b fun d => { d with next := r }).body = m.body := by
  funext x
  by_cases hx : x = b
  · subst hx
    simp [Mem.body, Mem.node_update_self, Option.map_map, Function.comp_def]
  · simp [Mem.body, Mem.node_update_ne _ _ hx]

/-- On a list the search stops at the node with the one before it in hand. -/
theorem freeSearch_chain {m : Mem} {a : Addr} {k l : List Addr} {n : Nat} {p : Option Addr}
    (BB : Option Addr) (h : Chain m.nxt p (k ++ a :: l)) (hk : a ∉ k) (hn : k.length < n) :
    freeSearch m a n p BB = some (some (k.getLast?.or BB)) := by
  induction k generalizing p BB n with
  | nil =>
    have hp : p = some a := h.1
    subst hp
    cases n with
    | zero => simp at hn
    | succ n => simp [freeSearch]
  | cons b k ih =>
    obtain ⟨rfl, r, hr, ht⟩ := h
    have hb : b ≠ a := by
      intro he
      exact hk (by simp [he])
    have hk' : a ∉ k := fun hm => hk (List.mem_cons_of_mem b hm)
    cases n with
    | zero => simp at hn
    | succ n =>
      have hi := ih (some b) ht hk' (by simpa using hn)
      simp only [freeSearch, hb, if_false, hr, hi]
      cases hl : k.getLast? <;> simp [List.getLast?_cons, hl]

theorem freeSearch_absent {m : Mem} {a : Addr} {l : List Addr} {n : Nat} {p BB : Option Addr}
    (h : Chain m.nxt p l) (ha : a ∉ l) (hn : l.length ≤ n) :
    freeSearch m a n p BB = some none := by
  induction l generalizing p BB n with
  | nil =>
    have hp : p = none := h
    subst hp
    cases n <;> rfl
  | cons b l ih =>
    obtain ⟨rfl, r, hr, ht⟩ := h
    have hb : b ≠ a := by
      intro he
      exact ha (by simp [he])
    cases n with
    | zero => simp at hn
    | succ n =>
      simp only [freeSearch, hb, if_false, hr]
      exact ih ht (fun hm => ha (List.mem_cons_of_mem b hm)) (by simpa using hn)

/-- Unlinking takes exactly one node out of the list and changes no other field. -/
theorem unlinkCycdata_chain {m : Mem} {a : Addr} {k l : List Addr}
    (h : m.ListIs (k ++ a :: l)) :
    ∃ m', unlinkCycdata a k.getLast? m = some m' ∧ m'.ListIs (k ++ l) ∧ m'.body = m.body ∧
      m' = { m with nodes := m'.nodes, cychead := m'.cychead } ∧
      m'.nodes.brk = m.nodes.brk := by
  have hnd := chain_nodup h
  obtain ⟨c, hc⟩ := h.node (a := a) (by simp)
  rcases List.eq_nil_or_concat k with rfl | ⟨k, b, rfl⟩
  · have hhead : m.cychead = some a := h.1
    have hu := chain_unlink_head h (Mem.nxt_of_node hc) (fun _ _ => rfl)
    exact ⟨{ m with cychead := c.next }, by simp [unlinkCycdata, hhead, hc], hu, rfl, rfl, rfl⟩
  · simp only [List.concat_eq_append] at h hnd ⊢
    rw [List.append_assoc, List.singleton_append] at h hnd
    obtain ⟨d, hd⟩ := h.node (a := b) (by simp)
    refine ⟨m.update b fun d => { d with next := c.next }, by simp [unlinkCycdata, hc, hd], ?_,
      body_update_next m b c.next, rfl, rfl⟩
    have hne : ∀ x, x ≠ b → (m.update b fun d => { d with next := c.next }).nxt x = m.nxt x := by
      intro x hx
      simp [Mem.nxt_eq, Mem.node_update_ne _ _ hx]
    have hb : (m.update b fun d => { d with next := c.next }).nxt b = some c.next := by
      simp [Mem.nxt_eq, Mem.node_update_self, hd]
    rw [List.append_assoc, List.singleton_append]
    refine chain_unlink h (Mem.nxt_of_node hc) hb (fun x hx => hne x ?_) (fun x hx => hne x ?_)
    · rintro rfl
      simp [List.nodup_append] at hnd
      grind
    · rintro rfl
      simp [List.nodup_append] at hnd
      grind

theorem body_eq_some {m m' : Mem} {a : Addr} {c : Cycdata} (hb : m'.body a = m.body a)
    (hc : m.node a = some c) : ∃ r, m'.node a = some { c with next := r } := by
  simp only [Mem.body, hc, Option.map_some] at hb
  obtain ⟨d, hd, he⟩ := Option.map_eq_some_iff.mp hb
  refine ⟨d.next, ?_⟩
  rw [hd]
  cases d
  cases c
  simp_all

/-- What freeCycdata leaves behind when it has removed the node `a`. -/
structure Freed (m : Mem) (a : Addr) (c : Cycdata) (m' : Mem) : Prop where
  gone : m'.node a = none
  body : ∀ b, b ≠ a → m'.body b = m.body b
  brk : m'.nodes.brk = m.nodes.brk
  logs : m'.logs = (m.release a c).logs
  libs : m'.libs = (m.release a c).libs
  trace : m'.trace = m.trace ++ releaseEvents m a c
  rest : m'.cycheadnext = m.cycheadnext ∧ m'.mainld = m.mainld ∧ m'.shead = m.shead ∧
    m'.filehead = m.filehead

theorem freeCycdata_chain {m : Mem} {a : Addr} {c : Cycdata} {k l : List Addr}
    (h : m.ListIs (k ++ a :: l)) (hc : m.node a = some c) (ok : HandleOk m c) :
    ∃ m', freeCycdata (some a) m = some (0, m') ∧ m'.ListIs (k ++ l) ∧ Freed m a c m' := by
  have hnd := chain_nodup h
  have hk : a ∉ k := by
    simp [List.nodup_append] at hnd
    grind
  have hkl : a ∉ k ++ l := by
    simp [List.nodup_append] at hnd
    grind
  have hlen := h.length_le
  have hs := freeSearch_chain none h hk (n := m.nodes.brk)
    (by simp at hlen; omega)
  obtain ⟨m₁, hu, hl₁, hb₁, hm₁, hbrk⟩ := unlinkCycdata_chain h
  obtain ⟨r, hc₁⟩ := body_eq_some (congrFun hb₁ a) hc
  have hmain : m₁.mainld = m.mainld := by rw [hm₁]
  have hlogs : m₁.logs = m.logs := by rw [hm₁]
  have hlibs : m₁.libs = m.libs := by rw [hm₁]
  have ok₁ : HandleOk m₁ { c with next := r } :=
    ⟨by simpa [hmain, hlogs] using ok.log, by simpa [hlibs] using ok.lib⟩
  have hown : ownLog m₁ { c with next := r } = ownLog m c := by simp [ownLog, hmain]
  refine ⟨m₁.release a { c with next := r }, ?_, ?_, ?_⟩
  · simp [freeCycdata, hs, hu, freeCleanup_run hc₁ ok₁]
  · refine chain_congr (fun b hb => ?_) hl₁
    have hne : b ≠ a := by
      rintro rfl
      exact hkl hb
    simp [Mem.nxt, Heap.next, Mem.release, Heap.cell_free_ne _ hne]
  · refine ⟨?_, fun b hb => ?_, hbrk, ?_, ?_, ?_, ?_⟩
    · simp [Mem.release, Mem.node]
    · rw [← hb₁]
      simp [Mem.body, Mem.node, Mem.release, Heap.cell_free_ne _ hb]
    · simp only [Mem.release, hown, hlogs]
    · simp only [Mem.release, hlibs]
    · simp only [Mem.release, releaseEvents, hown]
      rw [hm₁]
    · simp only [Mem.release]
      rw [hm₁]
      simp

structure Made (m : Mem) (dat : Option Addr) (m' : Mem) : Prop where
  node : m'.node m.nodes.brk = some { Cycdata.zero with fdate := dat }
  body : ∀ b, b ≠ m.nodes.brk → m'.body b = m.body b
  brk : m'.nodes.brk = m.nodes.brk + 1
  tail : m'.cycheadnext = some m.nodes.brk
  rest : m'.logs = m.logs ∧ m'.libs = m.libs ∧ m'.mainld = m.mainld ∧ m'.shead = m.shead ∧
    m'.filehead = m.filehead ∧ m'.trace = m.trace

/-- A new node becomes the last one, provided cycheadnext still is the last one. -/
theorem cycmake_chain {m : Mem} {l : List Addr} (dat : Option Addr) (h : m.ListIs l)
    (ht : l ≠ [] → m.cycheadnext = l.getLast?) :
    ∃ m', cycmake true dat m = some (some m.nodes.brk, m') ∧
      m'.ListIs (l ++ [m.nodes.brk]) ∧ Made m dat m' := by
  have hold : ∀ b, b ∈ l → b ≠ m.nodes.brk := by
    intro b hb he
    obtain ⟨c, hc⟩ := h.node hb
    exact Nat.ne_of_lt (m.nodes.lt_brk hc) he
  have hcell := Heap.cell_alloc_self m.nodes { Cycdata.zero with fdate := dat }
  rcases List.eq_nil_or_concat l with rfl | ⟨k, t, rfl⟩
  · have hhead : m.cychead = none := h
    refine ⟨linkTail m.nodes.brk { (cycmakeMalloc dat m).2 with cychead := some m.nodes.brk },
      by simp [cycmake, cycmakeMalloc, linkHead, hhead], ?_, ?_⟩
    · refine ⟨rfl, none, ?_, rfl⟩
      simp [Mem.nxt, Heap.next, linkTail, cycmakeMalloc, Cycdata.zero]
    · refine ⟨hcell, fun b hb => ?_, rfl, rfl, rfl, rfl, rfl, rfl, rfl, rfl⟩
      simp [Mem.body, Mem.node, linkTail, cycmakeMalloc, Heap.cell_alloc_ne _ _ hb]
  · simp only [List.concat_eq_append] at h ht hold ⊢
    obtain ⟨d, hd⟩ := h.node (a := t) (by simp)
    have htail : m.cycheadnext = some t := by simpa using ht (by simp)
    have hne := hold t (by simp)
    have hhead : ∃ x, m.cychead = some x := by
      cases k with
      | nil => exact ⟨t, h.1⟩
      | cons x k => exact ⟨x, h.1⟩
    obtain ⟨x, hhead⟩ := hhead
    have hd' : (cycmakeMalloc dat m).2.node t = some d := by
      simpa [cycmakeMalloc, Mem.node, Heap.cell_alloc_ne _ _ hne] using hd
    refine ⟨linkTail m.nodes.brk
      ((cycmakeMalloc dat m).2.update t fun c => { c with next := some m.nodes.brk }), ?_, ?_, ?_⟩
    · simp only [cycmake, if_true]
      simp [linkHead, cycmakeMalloc, hhead, htail] at hd' ⊢
      simp [hd']
    · have hnd := chain_nodup h
      refine chain_snoc h (fun b hb => ?_) ?_ ?_
      · have hbt : b ≠ t := by
          rintro rfl
          exact (List.nodup_append.mp hnd).2.2 b hb b (by simp) rfl
        have hbn := hold b (by simp [hb])
        simp [Mem.nxt, Heap.next, linkTail, Mem.update, cycmakeMalloc,
          Heap.cell_modify_ne _ _ hbt, Heap.cell_alloc_ne _ _ hbn]
      · simp [Mem.nxt_eq, linkTail, Mem.node, Mem.update] at hd' ⊢
        simp [hd']
      · simp [Mem.nxt, Heap.next, linkTail, Mem.update, cycmakeMalloc,
          Heap.cell_modify_ne _ _ (Ne.symm hne), Cycdata.zero]
    · refine ⟨?_, fun b hb => ?_, rfl, rfl, rfl, rfl, rfl, rfl, rfl, rfl⟩
      · simp [linkTail, Mem.node, Mem.update, Heap.cell_modify_ne _ _ (Ne.symm hne), cycmakeMalloc]
      · have hbody := body_update_next (cycmakeMalloc dat m).2 t (some m.nodes.brk)
        have hb' : (cycmakeMalloc dat m).2.body b = m.body b := by
          simp [Mem.body, Mem.node, cycmakeMalloc, Heap.cell_alloc_ne _ _ hb]
        rw [← hb', ← hbody]
        rfl

end TimeTask
