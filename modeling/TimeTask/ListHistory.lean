import TimeTask.CycList

/-! Whole histories of cycmake and freeCycdata calls. Identities are creation
numbers, so `Heap.live` lists the live nodes in creation order. -/
namespace TimeTask
open Lib

inductive ListOp where
  | make (dat : Option Addr)
  | free (a : Addr)
deriving DecidableEq, Repr

/-- One call; `none` when it touches a released node. -/
def ListOp.exec : ListOp → Mem → Option Mem
  | .make dat, m => (cycmake true dat m).map Prod.snd
  | .free a, m => (freeCycdata (some a) m).map Prod.snd

structure Mem.Start (m : Mem) : Prop where
  nodes : m.nodes = Heap.empty
  cychead : m.cychead = none
  cycheadnext : m.cycheadnext = none

/-- The two globals represent the live nodes in creation order, and cycheadnext is the tail. -/
structure Mem.Rep (m : Mem) : Prop where
  list : m.ListIs m.nodes.live
  tail : m.cychead ≠ none → m.cycheadnext = m.nodes.live.getLast?

/-- The representation holds now and after every call, and no call touches a released node. -/
def RepAlong : List ListOp → Mem → Prop
  | [], m => m.Rep
  | op :: ops, m => m.Rep ∧ ∃ m', op.exec m = some m' ∧ RepAlong ops m'

/-- freeCycdata is called on live nodes only. `l` are the live nodes, `n` the next identity. -/
def FreesLive : List ListOp → List Addr → Nat → Prop
  | [], _, _ => True
  | .make _ :: ops, l, n => FreesLive ops (l ++ [n]) (n + 1)
  | .free a :: ops, l, n => a ∈ l ∧ FreesLive ops (l.erase a) n

/-- No call removes the youngest live node while older ones stay. -/
def KeepsTail : List ListOp → List Addr → Nat → Prop
  | [], _, _ => True
  | .make _ :: ops, l, n => KeepsTail ops (l ++ [n]) (n + 1)
  | .free a :: ops, l, n => (l = [a] ∨ l.getLast? ≠ some a) ∧ KeepsTail ops (l.erase a) n

/-- Nodes made by cycmake alone own no handle. -/
def Mem.Bare (m : Mem) : Prop := ∀ a c, m.node a = some c → c.ld = none ∧ c.libdata.fdlib = none

theorem Bare.handleOk {m : Mem} (h : m.Bare) {a : Addr} {c : Cycdata} (hc : m.node a = some c) :
    HandleOk m c := by
  obtain ⟨hl, hf⟩ := h a c hc
  exact ⟨by simp [hl], by simp [hf]⟩

theorem Bare.of_body {m m' : Mem} (h : m.Bare)
    (hb : ∀ a c, m'.node a = some c → m'.body a = m.body a ∨ (c.ld = none ∧ c.libdata.fdlib = none)) :
    m'.Bare := by
  intro a c hc
  rcases hb a c hc with he | hn
  · obtain ⟨r, hr⟩ := body_eq_some he.symm hc
    simpa using h a _ hr
  · exact hn

theorem Rep.make {m : Mem} (h : m.Rep) (hb : m.Bare) (dat : Option Addr) :
    ∃ m', ListOp.exec (.make dat) m = some m' ∧ m'.Rep ∧ m'.Bare ∧
      m'.nodes.live = m.nodes.live ++ [m.nodes.brk] ∧ m'.nodes.brk = m.nodes.brk + 1 := by
  have htail : m.nodes.live ≠ [] → m.cycheadnext = m.nodes.live.getLast? := by
    intro hne
    apply h.tail
    intro hnone
    have hl := h.list
    rw [Mem.ListIs, hnone] at hl
    exact hne (chain_none hl)
  obtain ⟨m', hm', hl, hmade⟩ := cycmake_chain dat h.list htail
  have hlive : m'.nodes.live = m.nodes.live ++ [m.nodes.brk] := by
    have hiff : ∀ b, (m'.nodes.cell b).isSome = ((m.nodes.alloc Cycdata.zero).cell b).isSome := by
      intro b
      by_cases hbk : b = m.nodes.brk
      · subst hbk
        have hnode := hmade.node
        simp only [Mem.node] at hnode
        simp [hnode]
      · have hbody := congrArg Option.isSome (hmade.body b hbk)
        simpa [Mem.body, Mem.node, Heap.cell_alloc_ne _ _ hbk] using hbody
    rw [← Heap.live_alloc m.nodes Cycdata.zero]
    simp only [Heap.live, hmade.brk, Heap.brk_alloc]
    exact List.filter_congr fun b _ => hiff b
  refine ⟨m', by simp [ListOp.exec, hm'], ⟨by rw [hlive]; exact hl, ?_⟩, ?_, hlive, hmade.brk⟩
  · intro _
    rw [hlive, hmade.tail]
    simp
  · refine Bare.of_body hb fun a c hc => ?_
    by_cases ha : a = m.nodes.brk
    · subst ha
      rw [hmade.node] at hc
      cases hc
      exact Or.inr ⟨rfl, rfl⟩
    · exact Or.inl (hmade.body a ha)

/-- Removing any live node keeps the list; what may break is the tail pointer. -/
theorem Rep.free {m : Mem} (h : m.Rep) (hb : m.Bare) {a : Addr} (ha : a ∈ m.nodes.live) :
    ∃ m', ListOp.exec (.free a) m = some m' ∧ m'.ListIs m'.nodes.live ∧ m'.Bare ∧
      m'.nodes.live = m.nodes.live.erase a ∧ m'.nodes.brk = m.nodes.brk ∧
      m'.cycheadnext = m.cycheadnext := by
  obtain ⟨c, hc⟩ := h.list.node ha
  obtain ⟨k, l, hkl⟩ := List.append_of_mem ha
  have hnd := m.nodes.live_nodup
  have hlist := h.list
  rw [hkl] at hlist hnd
  have hk : a ∉ k := by
    simp [List.nodup_append] at hnd
    grind
  obtain ⟨m', hm', hl, hf⟩ := freeCycdata_chain hlist hc (Bare.handleOk hb hc)
  have hlive : m'.nodes.live = m.nodes.live.erase a := by
    have hiff : ∀ b, (m'.nodes.cell b).isSome = ((m.nodes.free a).cell b).isSome := by
      intro b
      by_cases hba : b = a
      · subst hba
        have hgone := hf.gone
        simp only [Mem.node] at hgone
        simp [hgone]
      · have hbody := congrArg Option.isSome (hf.body b hba)
        simpa [Mem.body, Mem.node, Heap.cell_free_ne _ hba] using hbody
    rw [← Heap.live_free m.nodes a]
    simp only [Heap.live, hf.brk, Heap.brk_free]
    exact List.filter_congr fun b _ => hiff b
  have herase : m.nodes.live.erase a = k ++ l := by
    rw [hkl, List.erase_append_right _ hk, List.erase_cons_head]
  refine ⟨m', by simp [ListOp.exec, hm'], by rw [hlive, herase]; exact hl, ?_, hlive, hf.brk,
    hf.rest.1⟩
  refine Bare.of_body hb fun b d hd => ?_
  by_cases hba : b = a
  · subst hba
    simp [hf.gone] at hd
  · exact Or.inl (hf.body b hba)

theorem getLast_erase {l : List Addr} {a : Addr} (hnd : l.Nodup) (ha : a ∈ l)
    (hl : l.getLast? ≠ some a) : (l.erase a).getLast? = l.getLast? := by
  obtain ⟨k, r, rfl⟩ := List.append_of_mem ha
  have hk : a ∉ k := by
    simp [List.nodup_append] at hnd
    grind
  rw [List.erase_append_right _ hk, List.erase_cons_head]
  rcases List.eq_nil_or_concat r with rfl | ⟨r, b, rfl⟩
  · simp at hl
  · simp [List.getLast?_append, List.getLast?_cons]

/-- One removal keeps the representation exactly when it spares the tail pointer's node. -/
theorem Rep.free_iff {m m' : Mem} {a : Addr} (h : m.Rep) (ha : a ∈ m.nodes.live)
    (hl : m'.ListIs m'.nodes.live) (hlive : m'.nodes.live = m.nodes.live.erase a)
    (hnext : m'.cycheadnext = m.cycheadnext) :
    m'.Rep ↔ m.nodes.live = [a] ∨ m.nodes.live.getLast? ≠ some a := by
  have hnd := m.nodes.live_nodup
  have hhead : m.cychead ≠ none := by
    intro hnone
    have hh := h.list
    rw [Mem.ListIs, hnone] at hh
    simp [chain_none hh] at ha
  constructor
  · intro hr
    by_contra hn
    obtain ⟨hne, hlast⟩ := not_or.mp hn
    simp only [ne_eq, not_not] at hlast
    obtain ⟨k, hk⟩ := List.getLast?_eq_some_iff.mp hlast
    rw [hk] at hnd
    have hak : a ∉ k := fun hm => (List.nodup_append.mp hnd).2.2 a hm a (by simp) rfl
    have hlive' : m'.nodes.live = k := by
      rw [hlive, hk, List.erase_append_right _ hak]
      simp
    have hk0 : k ≠ [] := by
      rintro rfl
      exact hne hk
    have hhead' : m'.cychead ≠ none := by
      intro hnone
      rw [Mem.ListIs, hnone] at hl
      exact hk0 (hlive' ▸ chain_none hl)
    have ht := hr.tail hhead'
    rw [hnext, h.tail hhead, hlast, hlive'] at ht
    exact hak (List.mem_of_getLast? ht.symm)
  · intro hor
    refine ⟨hl, fun hhead' => ?_⟩
    rcases hor with hone | hlast
    · have hnil : m'.nodes.live = [] := by rw [hlive, hone]; simp
      rw [Mem.ListIs, hnil] at hl
      exact absurd hl hhead'
    · rw [hnext, h.tail hhead, hlive, getLast_erase hnd ha hlast]

theorem repAlong_iff (ops : List ListOp) {m : Mem} (h : m.Rep) (hb : m.Bare)
    (hf : FreesLive ops m.nodes.live m.nodes.brk) :
    RepAlong ops m ↔ KeepsTail ops m.nodes.live m.nodes.brk := by
  induction ops generalizing m with
  | nil => simp [RepAlong, KeepsTail, h]
  | cons op ops ih =>
    cases op with
    | make dat =>
      obtain ⟨m', hm', hr, hb', hlive, hbrk⟩ := Rep.make h hb dat
      have hi := ih hr hb' (by rw [hlive, hbrk]; exact hf)
      simp [RepAlong, KeepsTail, h, hm', hi, hlive, hbrk]
    | free a =>
      obtain ⟨ha, hf⟩ := hf
      obtain ⟨m', hm', hl, hb', hlive, hbrk, hnext⟩ := Rep.free h hb ha
      have hiff := Rep.free_iff h ha hl hlive hnext
      simp only [RepAlong, KeepsTail, h, hm', Option.some.injEq, exists_eq_left', true_and,
        ← hiff]
      constructor
      · intro hall
        have hr : m'.Rep := by
          cases ops with
          | nil => exact hall
          | cons op ops => exact hall.1
        have hi := ih hr hb' (by rw [hlive, hbrk]; exact hf)
        exact ⟨hr, by rw [← hlive, ← hbrk]; exact hi.mp hall⟩
      · rintro ⟨hr, hk⟩
        have hi := ih hr hb' (by rw [hlive, hbrk]; exact hf)
        exact hi.mpr (by rw [hlive, hbrk]; exact hk)

theorem Start.rep {m : Mem} (h : m.Start) : m.Rep ∧ m.Bare ∧ m.nodes.live = [] ∧ m.nodes.brk = 0 := by
  have hlive : m.nodes.live = [] := by rw [h.nodes]; rfl
  refine ⟨⟨?_, fun hn => absurd h.cychead hn⟩, ?_, hlive, by rw [h.nodes]; rfl⟩
  · rw [hlive]
    exact h.cychead
  · intro a c hc
    simp [Mem.node, h.nodes] at hc

/-- For every history of calls the list represents the live nodes all along exactly when no call
removes the tail of a longer list. -/
theorem cycList_rep_iff (m : Mem) (hm : m.Start) (ops : List ListOp) (hf : FreesLive ops [] 0) :
    RepAlong ops m ↔ KeepsTail ops [] 0 := by
  obtain ⟨hr, hb, hlive, hbrk⟩ := Start.rep hm
  have h := repAlong_iff ops hr hb (by rw [hlive, hbrk]; exact hf)
  rwa [hlive, hbrk] at h

theorem init_start : Mem.init.Start := ⟨rfl, rfl, rfl⟩

def ListOp.run : List ListOp → Mem → Option Mem
  | [], m => some m
  | op :: ops, m => (op.exec m).bind (run ops)

/-- Nodes made and removed, but for the last of a longer list, until there is none and one is made again. -/
def keptOps : List ListOp := [.make none, .make none, .free 0, .make none, .free 1, .free 2, .make none]

theorem cycList_rep_kept : KeepsTail keptOps [] 0 ∧ RepAlong keptOps Mem.init ∧
    ∃ m, ListOp.run keptOps Mem.init = some m ∧ m.ListIs [3] ∧ m.cycheadnext = some 3 := by
  have hk : KeepsTail keptOps [] 0 := by simp [keptOps, KeepsTail]
  exact ⟨hk, (cycList_rep_iff Mem.init init_start keptOps (by simp [keptOps, FreesLive])).mpr hk,
    _, rfl, ⟨rfl, none, rfl, rfl⟩, rfl⟩

/-- Two nodes, the second removed, a third made: the last call writes to the removed node. -/
theorem cycmake_after_tail_removed :
    FreesLive [.make none, .make none, .free 1, .make none] [] 0 ∧
    ¬ RepAlong [.make none, .make none, .free 1, .make none] Mem.init ∧
    ListOp.run [.make none, .make none, .free 1, .make none] Mem.init = none := by
  have hf : FreesLive [.make none, .make none, .free 1, .make none] [] 0 := by simp [FreesLive]
  refine ⟨hf, ?_, rfl⟩
  obtain ⟨hr, hb, hlive, hbrk⟩ := Start.rep init_start
  intro h
  have hk := (repAlong_iff _ hr hb hf).mp h
  simp [KeepsTail, hlive, hbrk] at hk

end TimeTask
