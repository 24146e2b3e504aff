import TimeTask.Isolation

/-! TimeInit: main calls init and login of each module, and gives up at the first failure. -/
namespace TimeTask
open Lib

def moduleInit (r : Nat → Addr → Method → Ans) (a : Addr) : Option Cycdata → List Event × Option Cycdata
  | none => ([], none)
  | some c => ((timeDo (r 0 a) 0 a [.init, .login] c).1, some (timeDo (r 0 a) 0 a [.init, .login] c).2)

def initFails (r : Nat → Addr → Method → Ans) (m : Mem) (a : Addr) : Bool :=
  (m.view a).any (fails (r 0 a) [.init, .login])

theorem moduleInit_next (r : Nat → Addr → Method → Ans) (a : Addr) (s : Option Cycdata) :
    (moduleInit r a s).2.map Cycdata.next = s.map Cycdata.next := by
  cases s with
  | none => rfl
  | some c => exact congrArg some (timeDo_next _ _ _ _ _)

theorem upTo_subset {α : Type*} (p : α → Bool) (l : List α) : ∀ x ∈ upTo p l, x ∈ l := by
  induction l with
  | nil => exact fun x hx => hx
  | cons y l ih =>
    intro x hx
    rw [upTo_cons] at hx
    cases List.mem_cons.mp hx with
    | inl he => exact he ▸ List.mem_cons_self
    | inr hx =>
      split_ifs at hx
      · cases hx
      · exact List.mem_cons_of_mem y (ih x hx)

theorem upTo_all {α : Type*} {p : α → Bool} {l : List α} (h : l.any p = false) : upTo p l = l := by
  induction l with
  | nil => rfl
  | cons x l ih =>
    rw [List.any_cons, Bool.or_eq_false_iff] at h
    rw [upTo_cons, h.1, ih h.2]
    rfl

theorem upTo_congr {α : Type*} {p q : α → Bool} {l : List α} (h : ∀ x ∈ l, p x = q x) : upTo p l = upTo q l := by
  induction l with
  | nil => rfl
  | cons x l ih =>
    rw [upTo_cons, upTo_cons, h x List.mem_cons_self, ih fun y hy => h y (List.mem_cons_of_mem x hy)]

section Run
variable (dirch : List Byte) (r : Nat → Addr → Method → Ans)

theorem timeInit_calls (a : Addr) :
    Calls dirch r 0 a (fun ks => .main (.method a ks)) (fun k ks => .main (.wait a k ks)) (.main .END) [] := by
  refine ⟨fun k ks m c hc => ?_, fun k ks m => ?_, fun e he => by cases he⟩
  · have hm : m.emit [] = m := by rw [Mem.emit, List.append_nil]
    simp only [Machine.soloBody, daemon, mainStep, hc, hm]
    split_ifs <;> rfl
  · simp only [Machine.soloBody, daemon, mainStep, replies]
    split_ifs <;> rfl

theorem timeInit_goes {a : Addr} {c : Cycdata} {m : Mem} (hc : m.node a = some c) :
    ∃ m', Goes (moduleBody dirch r) (.main (.initAt (some a)), m)
        (.main (if initFails r m a then .END else .initAt c.next), m') ∧ Turned (moduleInit r) m [a] m' := by
  have hstart : Goes (moduleBody dirch r) (.main (.initAt (some a)), m) (.main (.method a [.init, .login]), m) :=
    Goes.one rfl
  obtain ⟨m', hg, hm, ht⟩ := calls_goes dirch r (timeInit_calls dirch r a) [.init, .login] hc
  have hturn : Turned (moduleInit r) m [a] m' := by
    refine Turned.one hc hm ht ?_
    simp only [moduleInit, unseen_core.timeDo]
  have hfail : initFails r m a = fails (r 0 a) [.init, .login] c := by
    rw [initFails, Mem.view, hc, Option.map_some, Option.any_some, unseen_core.fails]
  rw [hfail]
  refine ⟨m', hstart.trans ?_, hturn⟩
  cases hf : fails (r 0 a) [.init, .login] c with
  | true =>
    rw [hf] at hg
    exact hg
  | false =>
    rw [hf] at hg
    have hn : m'.nxt a = some c.next := by
      rw [hturn.nxt (moduleInit_next r)]
      exact Mem.nxt_of_node hc
    refine hg.trans (Goes.one ?_)
    simp only [Bool.false_eq_true, if_false, Machine.soloBody, daemon, mainStep, hn]

/-- The loop of main over the rest of the list. -/
theorem inits_go (l : List Addr) {p : Option Addr} {m : Mem} (h : Chain m.nxt p l) :
    ∃ m', Goes (moduleBody dirch r) (.main (.initAt p), m)
        (.main (if l.any (initFails r m) then .END else .pause), m') ∧
      Turned (moduleInit r) m (upTo (initFails r m) l) m' := by
  induction l generalizing p m with
  | nil =>
    have hp : p = none := h
    subst hp
    exact ⟨m, Goes.one rfl, fun _ => rfl, rfl, rfl, (List.append_nil _).symm⟩
  | cons a l ih =>
    have hnot := (List.nodup_cons.mp (chain_nodup h)).1
    obtain ⟨hp, s, hs, hl⟩ := h
    obtain ⟨c, hc, hcs⟩ := Option.map_eq_some_iff.mp hs
    subst hp
    obtain ⟨m₁, hg, ht⟩ := timeInit_goes dirch r hc
    rw [upTo_cons, List.any_cons]
    cases hf : initFails r m a with
    | true =>
      rw [hf] at hg
      exact ⟨m₁, hg, ht⟩
    | false =>
      rw [hf] at hg
      have hcn : c.next = s := hcs
      have hl₁ : Chain m₁.nxt c.next l := by
        rw [ht.nxt (moduleInit_next r), hcn]
        exact hl
      obtain ⟨m', hrun, hrest⟩ := ih hl₁
      -- the modules behind `a` have not moved yet
      have hsame : ∀ b ∈ l, initFails r m₁ b = initFails r m b := by
        intro b hb
        have hba : b ∉ [a] := fun hm => hnot (List.mem_singleton.mp hm ▸ hb)
        rw [initFails, initFails, ht.view b, if_neg hba]
      have hany : l.any (initFails r m₁) = l.any (initFails r m) := by
        rw [Bool.eq_iff_iff, List.any_eq_true, List.any_eq_true]
        exact exists_congr fun b => and_congr_right fun hb => by rw [hsame b hb]
      rw [hany] at hrun
      rw [upTo_congr hsame] at hrest
      refine ⟨m', hg.trans hrun, ht.trans hrest fun b hb hba => hnot ?_⟩
      exact List.mem_singleton.mp hba ▸ upTo_subset _ _ b hb

theorem inits_turned {m : Mem} {mods : List Addr} (h : m.ListIs mods) :
    ∃ m', Goes (moduleBody dirch r) (.main .timeInit, m)
        (.main (if mods.any (initFails r m) then .END else .pause), m') ∧
      Turned (moduleInit r) m (upTo (initFails r m) mods) m' ∧ m'.ListIs mods := by
  have hstart : Goes (moduleBody dirch r) (.main .timeInit, m) (.main (.initAt m.cychead), m) := Goes.one rfl
  obtain ⟨m', hg, ht⟩ := inits_go dirch r mods h
  refine ⟨m', hstart.trans hg, ht, ?_⟩
  rw [Mem.ListIs, ht.nxt (moduleInit_next r), ht.head]
  exact h

end Run

/-- From TimeInit on main calls init and login of the modules in the order of the list, up to the
first answer below 0. It comes to pause if there is none and gives up otherwise; the modules behind
the one that failed are as they were. -/
theorem timeInit_outcome (dirch : List Byte) (r : Nat → Addr → Method → Ans) (m : Mem) (mods : List Addr)
    (h : m.ListIs mods) :
    ∃ m', Goes (moduleBody dirch r) (.main .timeInit, m)
        (.main (if mods.any (initFails r m) then .END else .pause), m') ∧ m'.ListIs mods ∧
      m'.methodTrace = m.methodTrace ++
        (upTo (initFails r m) mods).flatMap (fun a => (moduleInit r a (m.view a)).1) ∧
      ∀ b, m'.view b = if b ∈ upTo (initFails r m) mods then (moduleInit r b (m.view b)).2 else m.view b := by
  obtain ⟨m', hg, ht, hl⟩ := inits_turned dirch r h
  exact ⟨m', hg, hl, ht.trace, ht.view⟩

def starting : Mem :=
  let c : Cycdata := { Cycdata.zero with init := some 1, login := some 2 }
  { Mem.init with
    nodes := (Heap.empty.alloc { c with next := some 1 }).alloc c
    cychead := some 0 }

def lockedOut : Nat → Addr → Method → Ans := fun _ _ k =>
  ⟨if k = .login then -1 else 0, none, false, none, none, false, none, false⟩

theorem timeInit_outcome_two :
    ∃ m', Goes (moduleBody [] lockedOut) (.main .timeInit, starting) (.main .END, m') ∧
      m'.methodTrace = [.call 0 0 .init, .ret 0 0 .init 0, .call 0 0 .login, .ret 0 0 .login (-1)] := by
  have hl : starting.ListIs [0, 1] := ⟨rfl, some 1, rfl, rfl, none, rfl, rfl⟩
  obtain ⟨m', hg, _, ht, _⟩ := timeInit_outcome [] lockedOut starting [0, 1] hl
  exact ⟨m', hg, ht⟩

end TimeTask
