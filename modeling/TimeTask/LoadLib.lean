import TimeTask.CycList
import TimeTask.Lib.CString

/-! loadLib: the libraries of one directory become the module list. -/
namespace TimeTask
open Lib

/-- One name that readdir delivers, what dlopen and dlsym answer for it, and whether
malloc succeeds in the cycmake call for it. -/
structure Entry where
  dName : List Byte
  nulFree : NulFree dName
  lib : Option (Method → Option Addr)
  malloc : Bool

/-- The file names `lib*.so` of a length that fits the name arrays. -/
def Entry.candidate (e : Entry) : Bool :=
  let dirfilenum := e.dName.length
  !(decide (dirfilenum < 7) || decide (dirfilenum > nameCharNumMax + 6 - 1)) &&
    e.dName.take 3 == [108, 105, 98] && e.dName.drop (dirfilenum - 3) == [46, 115, 111]

/-- chaa: the name between `lib` and `.so`. -/
def Entry.chaa (e : Entry) : List Byte := (e.dName.drop 3).take (e.dName.length - 6)

/-- chbb: the path handed to dlopen. -/
def Entry.chbb (dirch : List Byte) (e : Entry) : List Byte := dirch ++ 47 :: e.dName

def Method.all : List Method := [.init, .login, .seach, .howdo, .send, .deldate]

/-- The stores into a new node, in the order of the source. -/
inductive Field where
  | fdlib | name | wherename
  | method (k : Method)
deriving DecidableEq, Repr

structure LibInfo where
  dirhandletem : Addr
  chaa : List Byte
  chbb : List Byte
  syms : Method → Option Addr

def Field.store (i : LibInfo) (c : Cycdata) : Field → Cycdata
  | .fdlib => { c with libdata := { c.libdata with fdlib := some i.dirhandletem } }
  | .name => { c with libdata := { c.libdata with name := i.chaa } }
  | .wherename => { c with libdata := { c.libdata with wherename := i.chbb } }
  | .method .init => { c with init := i.syms .init }
  | .method .login => { c with login := i.syms .login }
  | .method .seach => { c with seach := i.syms .seach }
  | .method .howdo => { c with howdo := i.syms .howdo }
  | .method .send => { c with send := i.syms .send }
  | .method .deldate => { c with deldate := i.syms .deldate }

def fields : List Field := [.fdlib, .name, .wherename] ++ Method.all.map .method

def fillNode (a : Addr) (i : LibInfo) (m : Mem) : Mem :=
  fields.foldl (fun m f => m.update a fun c => f.store i c) m

/-- A handle here stands for one call of dlopen. The real one of a file that is opened twice is shared,
with a count that each dlclose takes down by one. -/
def dlopen (m : Mem) : Addr × Mem := (m.libs.brk, { m with libs := m.libs.alloc () })

/-- The loop over the directory. The result is `none` when a copy leaves its array. -/
def loadLoop (dirch : List Byte) : List Entry → Nat → Mem → Option (Int × Mem)
  | [], libnumhas, m =>
    some (if libnumhas = 0 then tcsOtherErr - 4 else 0, m.emit [.closedir])
  | e :: es, libnumhas, m =>
    if !e.candidate then loadLoop dirch es libnumhas m
    else if 64 ≤ (e.chbb dirch).length then none
    else
      match e.lib with
      | none => some (tcsOtherErr - 1, m)
      | some syms =>
        let (dirhandletem, m) := dlopen m
        if Method.all.all fun k => (syms k).isNone then
          (dlclose dirhandletem m).map fun m => (tcsOtherErr - 2, m)
        else
          match cycmake e.malloc none m with
          | none => none
          | some (none, m) => some (tcsOtherErr - 3, m)
          | some (some cyctem, m) =>
            loadLoop dirch es (libnumhas + 1)
              (fillNode cyctem ⟨dirhandletem, e.chaa, e.chbb dirch, syms⟩ m)

/-- `dirdat` are the names behind the stream that opendir returns. -/
def loadLib (dirch : Option (List Byte)) (dirdat : Option (List Entry)) (m : Mem) :
    Option (Int × Mem) :=
  match dirch with
  | none => some (tcsArgNull, m)
  | some dirch =>
    match dirdat with
    | none => some (tcsOtherErr, m)
    | some es => loadLoop dirch es 0 (m.emit [.opendir])

/-- The node that stands for an opened library. -/
def builtNode (i : LibInfo) : Cycdata :=
  { Cycdata.zero with
    libdata := ⟨some i.dirhandletem, i.chaa, i.chbb⟩
    init := i.syms .init
    login := i.syms .login
    seach := i.syms .seach
    howdo := i.syms .howdo
    send := i.syms .send
    deldate := i.syms .deldate }

def Entry.built (dirch : List Byte) (h : Addr) (e : Entry) : Option Cycdata :=
  e.lib.map fun syms => builtNode ⟨h, e.chaa, e.chbb dirch, syms⟩

/-- The accepted entries `es` have been appended, one node and one open handle each, to a
memory whose module list was empty. -/
structure Loaded (dirch : List Byte) (m₀ : Mem) (es : List Entry) (m : Mem) : Prop where
  list : m.ListIs (List.range' m₀.nodes.brk es.length)
  tail : es ≠ [] → m.cycheadnext = (List.range' m₀.nodes.brk es.length).getLast?
  body : ∀ (i : Nat) (e : Entry), es[i]? = some e →
    m.body (m₀.nodes.brk + i) = e.built dirch (m₀.libs.brk + i) ∧ e.lib.isSome
  brk : m.nodes.brk = m₀.nodes.brk + es.length
  libs : m.libs.brk = m₀.libs.brk + es.length
  isOpen : ∀ i : Nat, i < es.length → m.libs.cell (m₀.libs.brk + i) = some ()
  rest : m.logs = m₀.logs ∧ m.mainld = m₀.mainld ∧ m.shead = m₀.shead ∧ m.filehead = m₀.filehead

theorem fillNode_node {m : Mem} {a : Addr} {c : Cycdata} (i : LibInfo) (h : m.node a = some c) :
    (fillNode a i m).node a = some { builtNode i with
      tidata := c.tidata, para := c.para, fdate := c.fdate, ld := c.ld, next := c.next } := by
  simp [fillNode, fields, Method.all, Mem.node_update_self, h, Field.store, builtNode]

theorem fillNode_ne {m : Mem} {a b : Addr} (i : LibInfo) (h : b ≠ a) :
    (fillNode a i m).node b = m.node b := by
  simp [fillNode, fields, Method.all, Mem.node_update_ne _ _ h]

theorem fillNode_body_ne {m : Mem} {a b : Addr} (i : LibInfo) (h : b ≠ a) :
    (fillNode a i m).body b = m.body b := by
  rw [Mem.body, fillNode_ne i h, Mem.body]

theorem fillNode_nxt (a : Addr) (i : LibInfo) (m : Mem) : (fillNode a i m).nxt = m.nxt := by
  funext b
  by_cases hb : b = a
  · subst hb
    cases hn : m.node b with
    | none => simp [fillNode, fields, Method.all, Mem.nxt_eq, Mem.node_update_self, hn]
    | some c => rw [Mem.nxt_eq, fillNode_node i hn, Mem.nxt_eq, hn]; rfl
  · rw [Mem.nxt_eq, fillNode_ne i hb, Mem.nxt_eq]

/-- The entries `es` each got a node behind the module list `l` of `m₀`, and an open handle. -/
structure Appended (dirch : List Byte) (m₀ : Mem) (l : List Addr) (es : List Entry) (m : Mem) : Prop where
  list : m.ListIs (l ++ List.range' m₀.nodes.brk es.length)
  tail : l ++ List.range' m₀.nodes.brk es.length ≠ [] →
    m.cycheadnext = (l ++ List.range' m₀.nodes.brk es.length).getLast?
  body : ∀ (i : Nat) (e : Entry), es[i]? = some e →
    m.body (m₀.nodes.brk + i) = e.built dirch (m₀.libs.brk + i) ∧ e.lib.isSome
  old : ∀ a < m₀.nodes.brk, m.body a = m₀.body a
  brk : m.nodes.brk = m₀.nodes.brk + es.length
  libs : m.libs.brk = m₀.libs.brk + es.length
  isOpen : ∀ i : Nat, i < es.length → m.libs.cell (m₀.libs.brk + i) = some ()
  rest : m.logs = m₀.logs ∧ m.mainld = m₀.mainld ∧ m.shead = m₀.shead ∧ m.filehead = m₀.filehead ∧
    m.trace = m₀.trace

theorem Appended.nil {dirch : List Byte} {m : Mem} {l : List Addr} (h : m.ListIs l)
    (ht : l ≠ [] → m.cycheadnext = l.getLast?) : Appended dirch m l [] m :=
  ⟨by simpa using h, by simpa using ht, by simp, fun _ _ => rfl, rfl, rfl, by simp, rfl, rfl, rfl, rfl, rfl⟩

theorem Appended.snoc {dirch : List Byte} {m₀ m : Mem} {l : List Addr} {es : List Entry}
    (h : Appended dirch m₀ l es m) {e : Entry} {syms : Method → Option Addr} (hlib : e.lib = some syms) :
    ∃ a m', cycmake true none (dlopen m).2 = some (some a, m') ∧
      Appended dirch m₀ l (es ++ [e])
        (fillNode a ⟨(dlopen m).1, e.chaa, e.chbb dirch, syms⟩ m') := by
  have hlist : (dlopen m).2.ListIs (l ++ List.range' m₀.nodes.brk es.length) := h.list
  obtain ⟨m', hmk, hl, hmade⟩ := cycmake_chain none hlist h.tail
  have hbrk : (dlopen m).2.nodes.brk = m₀.nodes.brk + es.length := h.brk
  rw [hbrk] at hmk hl
  have hnode := hmade.node
  rw [hbrk] at hnode
  have hrange : l ++ List.range' m₀.nodes.brk (es ++ [e]).length =
      l ++ List.range' m₀.nodes.brk es.length ++ [m₀.nodes.brk + es.length] := by
    rw [List.length_append, List.length_singleton, List.range'_1_concat, List.append_assoc]
  obtain ⟨hlogs, hlibs, hmain, hshead, hfile, htrace⟩ := hmade.rest
  have hcell : m'.libs = m.libs.alloc () := hlibs
  have hold : ∀ b, b ≠ m₀.nodes.brk + es.length → (fillNode (m₀.nodes.brk + es.length)
      ⟨(dlopen m).1, e.chaa, e.chbb dirch, syms⟩ m').body b = m.body b := by
    intro b hb
    rw [fillNode_body_ne _ hb]
    exact hmade.body b (by rw [hbrk]; exact hb)
  refine ⟨_, m', hmk, ?_, fun _ => ?_, ?_, fun a ha => ?_, ?_, ?_, ?_, ?_⟩
  · rw [Mem.ListIs, fillNode_nxt, hrange]
    exact hl
  · have ht := hmade.tail
    rw [hbrk] at ht
    rw [hrange]
    exact ht.trans (by simp)
  · intro i x hx
    by_cases hi : i = es.length
    · subst hi
      have hxe : x = e := by simpa using hx.symm
      subst hxe
      have hfill := fillNode_node ⟨(dlopen m).1, x.chaa, x.chbb dirch, syms⟩ hnode
      simp only [Mem.body, hfill, Entry.built, hlib, Option.map_some]
      refine ⟨?_, rfl⟩
      simp [builtNode, Cycdata.zero, dlopen, h.libs]
    · have hlt : i < es.length := by
        have hlen := (List.getElem?_eq_some_iff.mp hx).1
        simp only [List.length_append, List.length_singleton] at hlen
        omega
      rw [List.getElem?_append_left hlt] at hx
      have hne : m₀.nodes.brk + i ≠ m₀.nodes.brk + es.length := fun he => hi (Nat.add_left_cancel he)
      rw [hold _ hne]
      exact h.body i x hx
  · rw [hold a (Nat.ne_of_lt (Nat.lt_of_lt_of_le ha (Nat.le_add_right _ _)))]
    exact h.old a ha
  · have hb := hmade.brk
    rw [hbrk] at hb
    rw [List.length_append]
    exact hb
  · rw [List.length_append]
    have hl : (fillNode (m₀.nodes.brk + es.length) ⟨(dlopen m).1, e.chaa, e.chbb dirch, syms⟩ m').libs =
        m'.libs := rfl
    rw [hl, hcell, Heap.brk_alloc, h.libs]
    rfl
  · intro i hi
    have hl : (fillNode (m₀.nodes.brk + es.length) ⟨(dlopen m).1, e.chaa, e.chbb dirch, syms⟩ m').libs =
        m.libs.alloc () := hcell
    rw [hl]
    by_cases he : i = es.length
    · subst he
      rw [← h.libs]
      exact Heap.cell_alloc_self _ _
    · have hlt : i < es.length := by
        simp only [List.length_append, List.length_singleton] at hi
        omega
      exact Heap.cell_alloc_old _ _ (h.isOpen i hlt)
  · exact ⟨hlogs.trans h.rest.1, hmain.trans h.rest.2.1, hshead.trans h.rest.2.2.1,
      hfile.trans h.rest.2.2.2.1, htrace.trans h.rest.2.2.2.2⟩

/-- dlopen opens the library of the entry, and one of the six symbols is in it. -/
def Entry.works (e : Entry) : Bool := e.lib.any fun syms => !Method.all.all fun k => (syms k).isNone

def Entry.good (e : Entry) : Bool := e.works && e.malloc

/-- What the first candidate that makes the loop stop leaves: no library, no symbol, or no node. -/
inductive Stops (e : Entry) (m : Mem) : Int → Mem → Prop
  | dlopen (h : e.lib = none) : Stops e m (tcsOtherErr - 1) m
  | dlsym (h : e.lib.isSome) (hw : e.works = false) : Stops e m (tcsOtherErr - 2)
      ({ m with libs := (m.libs.alloc ()).free m.libs.brk }.emit [.dlclose m.libs.brk])
  | cycmk (hw : e.works = true) (hm : e.malloc = false) : Stops e m (tcsOtherErr - 3) (dlopen m).2

/-- One candidate whose path fits: a node behind the list, or the end of the loop. -/
theorem loadLoop_step {dirch : List Byte} {m₀ m : Mem} {l : List Addr} {done : List Entry} {e : Entry}
    (h : Appended dirch m₀ l done m) (hc : e.candidate = true) (hlen : (e.chbb dirch).length < 64) :
    (e.good = true ∧ ∃ m₁, Appended dirch m₀ l (done ++ [e]) m₁ ∧
      ∀ es n, loadLoop dirch (e :: es) n m = loadLoop dirch es (n + 1) m₁) ∨
    (e.good = false ∧ ∃ ret m', Stops e m ret m' ∧
      ∀ es n, loadLoop dirch (e :: es) n m = some (ret, m')) := by
  have hfit : ¬64 ≤ (e.chbb dirch).length := Nat.not_le.mpr hlen
  cases hlib : e.lib with
  | none =>
    have hw : e.works = false := by simp [Entry.works, hlib]
    refine .inr ⟨by simp [Entry.good, hw], _, _, .dlopen hlib, fun es n => ?_⟩
    simp only [loadLoop, hc, Bool.not_true, Bool.false_eq_true, if_false, if_neg hfit, hlib]
  | some syms =>
    cases hall : Method.all.all fun k => (syms k).isNone with
    | true =>
      have hw : e.works = false := by simp only [Entry.works, hlib, Option.any_some, hall, Bool.not_true]
      have hclose : dlclose (dlopen m).1 (dlopen m).2 = some
          ({ m with libs := (m.libs.alloc ()).free m.libs.brk }.emit [.dlclose m.libs.brk]) := by
        simp [dlclose, dlopen, Mem.emit]
      refine .inr ⟨by simp [Entry.good, hw], _, _, .dlsym (by simp [hlib]) hw, fun es n => ?_⟩
      simp only [loadLoop, hc, Bool.not_true, Bool.false_eq_true, if_false, if_neg hfit, hlib]
      rw [hall, if_pos rfl, hclose, Option.map_some]
    | false =>
      have hw : e.works = true := by simp only [Entry.works, hlib, Option.any_some, hall, Bool.not_false]
      cases hmal : e.malloc with
      | false =>
        refine .inr ⟨by simp [Entry.good, hmal], _, _, .cycmk hw hmal, fun es n => ?_⟩
        simp only [loadLoop, hc, Bool.not_true, Bool.false_eq_true, if_false, if_neg hfit, hlib]
        rw [hall, if_neg Bool.false_ne_true, hmal]
        rfl
      | true =>
        obtain ⟨a, m₁, hmk, hl⟩ := h.snoc hlib
        refine .inl ⟨by simp [Entry.good, hw, hmal], _, hl, fun es n => ?_⟩
        simp only [loadLoop, hc, Bool.not_true, Bool.false_eq_true, if_false, if_neg hfit, hlib]
        rw [hall, if_neg Bool.false_ne_true, hmal, hmk]

/-- How the loop ends: a node for each candidate before the first one that stops it, or for all
of them and the directory closed. -/
theorem loadLoop_ends {dirch : List Byte} {m₀ : Mem} {l : List Addr} (es : List Entry) :
    ∀ (done : List Entry) (n : Nat) (m m' : Mem) (ret : Int), Appended dirch m₀ l done m →
      loadLoop dirch es n m = some (ret, m') →
      ∃ m₁, Appended dirch m₀ l
          (done ++ (es.filter Entry.candidate).takeWhile Entry.good) m₁ ∧
        match (es.filter Entry.candidate).find? fun e => !e.good with
        | none => m' = m₁.emit [.closedir] ∧
          ret = if n + (es.filter Entry.candidate).length = 0 then tcsOtherErr - 4 else 0
        | some e => Stops e m₁ ret m' := by
  induction es with
  | nil =>
    intro done n m m' ret h hrun
    simp only [loadLoop, Option.some.injEq, Prod.mk.injEq] at hrun
    exact ⟨m, by simpa using h, hrun.2.symm, hrun.1.symm⟩
  | cons e es ih =>
    intro done n m m' ret h hrun
    cases hc : e.candidate with
    | false =>
      simp only [loadLoop, hc, Bool.not_false, if_true] at hrun
      rw [List.filter_cons_of_neg (by simp [hc])]
      exact ih done n m m' ret h hrun
    | true =>
      have hlen : (e.chbb dirch).length < 64 := by
        by_contra hn
        simp [loadLoop, hc, Nat.not_lt.mp hn] at hrun
      rw [List.filter_cons_of_pos hc]
      obtain ⟨hgood, m₁, happ, hgo⟩ | ⟨hgood, r, m₁, hstop, hgo⟩ := loadLoop_step h hc hlen
      · rw [hgo] at hrun
        have hi := ih (done ++ [e]) (n + 1) m₁ m' ret happ hrun
        have hnum : n + 1 + (es.filter Entry.candidate).length =
            n + (e :: es.filter Entry.candidate).length := by
          rw [List.length_cons]
          omega
        rw [List.takeWhile_cons_of_pos hgood, List.find?_cons_of_neg (by simp [hgood]), ← hnum]
        rw [List.append_assoc, List.singleton_append] at hi
        exact hi
      · rw [hgo, Option.some.injEq, Prod.mk.injEq] at hrun
        obtain ⟨hret, hm⟩ := hrun
        subst hret
        subst hm
        rw [List.takeWhile_cons_of_neg (by simp [hgood]), List.find?_cons_of_pos (by simp [hgood])]
        exact ⟨m, by simpa using h, hstop⟩

theorem loadLoop_returns {dirch : List Byte} {m₀ : Mem} {l : List Addr} (es : List Entry) :
    ∀ (done : List Entry) (n : Nat) (m : Mem), Appended dirch m₀ l done m →
      (∀ e ∈ es, e.candidate = true → (e.chbb dirch).length < 64) →
      ∃ ret m', loadLoop dirch es n m = some (ret, m') := by
  induction es with
  | nil => exact fun _ _ _ _ _ => ⟨_, _, rfl⟩
  | cons e es ih =>
    intro done n m h hfit
    have htail : ∀ x ∈ es, x.candidate = true → (x.chbb dirch).length < 64 :=
      fun x hx => hfit x (List.mem_cons_of_mem e hx)
    cases hc : e.candidate with
    | false =>
      simp only [loadLoop, hc, Bool.not_false, if_true]
      exact ih done n m h htail
    | true =>
      obtain ⟨-, m₁, happ, hgo⟩ | ⟨-, ret, m', -, hgo⟩ :=
        loadLoop_step h hc (hfit e List.mem_cons_self hc)
      · rw [hgo]
        exact ih (done ++ [e]) (n + 1) m₁ happ htail
      · exact ⟨ret, m', hgo es n⟩

theorem loadLib_returns {dirch : List Byte} {es : List Entry} {m : Mem} {l : List Addr} (hl : m.ListIs l)
    (ht : l ≠ [] → m.cycheadnext = l.getLast?)
    (hfit : ∀ e ∈ es, e.candidate = true → (e.chbb dirch).length < 64) :
    ∃ ret m', loadLib (some dirch) (some es) m = some (ret, m') := by
  have hstart : Appended dirch (m.emit [.opendir]) l [] (m.emit [.opendir]) := Appended.nil hl ht
  exact loadLoop_returns es [] 0 _ hstart hfit

theorem loadLib_ends {dirch : List Byte} {es : List Entry} {m m' : Mem} {l : List Addr} {ret : Int}
    (hl : m.ListIs l) (ht : l ≠ [] → m.cycheadnext = l.getLast?)
    (hrun : loadLib (some dirch) (some es) m = some (ret, m')) :
    ∃ m₁, Appended dirch (m.emit [.opendir]) l ((es.filter Entry.candidate).takeWhile Entry.good) m₁ ∧
      match (es.filter Entry.candidate).find? fun e => !e.good with
      | none => m' = m₁.emit [.closedir] ∧
        ret = if (es.filter Entry.candidate).length = 0 then tcsOtherErr - 4 else 0
      | some e => Stops e m₁ ret m' := by
  have hstart : Appended dirch (m.emit [.opendir]) l [] (m.emit [.opendir]) := Appended.nil hl ht
  have hend := loadLoop_ends es [] 0 _ m' ret hstart hrun
  rw [Nat.zero_add] at hend
  exact hend

/-- loadLib on an empty module list, when it succeeds. -/
theorem loadLib_loaded {dirch : List Byte} {es : List Entry} {m₀ m : Mem} (h0 : m₀.cychead = none)
    (h : loadLib (some dirch) (some es) m₀ = some (0, m)) :
    Loaded dirch m₀ (es.filter Entry.candidate) m := by
  have hnil : m₀.ListIs [] := h0
  obtain ⟨m₁, happ, hend⟩ := loadLib_ends hnil (fun hn => absurd rfl hn) h
  cases hfind : (es.filter Entry.candidate).find? fun e => !e.good with
  | none =>
    rw [hfind] at hend
    rw [List.find?_eq_none] at hfind
    rw [List.takeWhile_eq_self_iff.mpr fun e he => by simpa using hfind e he] at happ
    have hlist := happ.list
    have htail := happ.tail
    rw [List.nil_append] at hlist htail
    rw [hend.1]
    refine ⟨hlist, fun hn => htail fun he => hn ?_, happ.body, happ.brk, happ.libs, happ.isOpen, happ.rest.1,
      happ.rest.2.1, happ.rest.2.2.1, happ.rest.2.2.2.1⟩
    simpa using congrArg List.length he
  | some e =>
    rw [hfind] at hend
    cases hend

theorem Entry.candidate_length {e : Entry} (h : e.candidate = true) :
    7 ≤ e.dName.length ∧ e.dName.length ≤ 37 := by
  simp only [Entry.candidate, Bool.and_eq_true, Bool.not_eq_true', Bool.or_eq_false_iff] at h
  have hlow := of_decide_eq_false h.1.1.1
  have hhigh := of_decide_eq_false h.1.1.2
  rw [nameCharNumMax] at hhigh
  omega

theorem Entry.dName_eq {e : Entry} (h : e.candidate = true) :
    e.dName = [108, 105, 98] ++ e.chaa ++ [46, 115, 111] := by
  obtain ⟨hlow, -⟩ := e.candidate_length h
  simp only [Entry.candidate, Bool.and_eq_true, beq_iff_eq] at h
  have hend : (e.dName.drop 3).drop (e.dName.length - 6) = [46, 115, 111] := by
    rw [List.drop_drop, show 3 + (e.dName.length - 6) = e.dName.length - 3 by omega]
    exact h.2
  have hmid := List.take_append_drop (e.dName.length - 6) (e.dName.drop 3)
  rw [hend] at hmid
  rw [List.append_assoc, Entry.chaa, hmid, ← h.1.2, List.take_append_drop]

theorem Entry.chaa_length {e : Entry} (h : e.candidate = true) :
    e.chaa.length = e.dName.length - 6 ∧ e.chaa ≠ [] ∧ e.chaa.length < nameCharNumMax := by
  obtain ⟨h₁, h₂⟩ := e.candidate_length h
  have hl : e.chaa.length = e.dName.length - 6 := by
    simp only [Entry.chaa, List.length_take, List.length_drop]
    omega
  refine ⟨hl, ?_, ?_⟩
  · intro hn
    rw [hn] at hl
    simp at hl
    omega
  · rw [hl, nameCharNumMax]
    omega

/-- The library `lib<n times a>.so` with all six methods. -/
def aLib (n : Nat) : Entry where
  dName := [108, 105, 98] ++ List.replicate n 97 ++ [46, 115, 111]
  nulFree b hb := by
    have hlib : NulFree [108, 105, 98] := by decide
    have hso : NulFree [46, 115, 111] := by decide
    simp only [List.mem_append, List.mem_replicate] at hb
    obtain ((hb | hb) | hb) := hb
    · exact hlib b hb
    · rw [hb.2]
      decide
    · exact hso b hb
  lib := some fun _ => some 0
  malloc := true

end TimeTask
