import TimeTask.Lib.Heap

/-! The data of type.h and logLog.h, and the memory that main.c works on. -/
namespace TimeTask
open Lib

abbrev Byte := UInt8
abbrev Addr := Nat

def tcsOtherErr : Int := -10
def tcsArgNull : Int := -1

/-- `nameCharNumMax`, the size of every name array. -/
def nameCharNumMax : Nat := 32

/-- `mystring`: a pointer into the packed configuration and a length. -/
structure Mystring where
  date : Option Nat
  len : Int
deriving DecidableEq, Repr

structure Onedate where
  key : Mystring
  value : Mystring
deriving DecidableEq, Repr

/- The entries of one section and the sections of one file are lists that only
   their builder extends, at the tail. They are kept as the list of their nodes. -/
structure Filedate where
  name : List Byte
  date : List (Addr × Onedate)
deriving DecidableEq, Repr

structure Libsodata where
  fdlib : Option Addr
  name : List Byte
  wherename : List Byte
deriving DecidableEq, Repr

/-- One loaded task module. A NULL pointer is `none`. -/
structure Cycdata where
  tidata : Onedate
  para : Option Addr
  libdata : Libsodata
  fdate : Option Addr
  init : Option Addr
  login : Option Addr
  seach : Option Addr
  howdo : Option Addr
  send : Option Addr
  deldate : Option Addr
  ld : Option Addr
  next : Option Addr
deriving DecidableEq, Repr

/-- The node after `memset(tem,0,sizeof(cycdata))`. -/
def Cycdata.zero : Cycdata where
  tidata := ⟨⟨none, 0⟩, ⟨none, 0⟩⟩
  para := none
  libdata := ⟨none, [], []⟩
  fdate := none
  init := none
  login := none
  seach := none
  howdo := none
  send := none
  deldate := none
  ld := none
  next := none

inductive Method where
  | init | login | seach | howdo | send | deldate
deriving DecidableEq, Repr

def Cycdata.method (c : Cycdata) : Method → Option Addr
  | .init => c.init
  | .login => c.login
  | .seach => c.seach
  | .howdo => c.howdo
  | .send => c.send
  | .deldate => c.deldate

/-- What an execution does to the outside and to its resources. `who` numbers the
invocation of a signal handler; the main program is number 0. -/
inductive Event where
  | call (who : Nat) (a : Addr) (m : Method)
  | ret (who : Nat) (a : Addr) (m : Method) (r : Int)
  | access (who : Nat) (a : Addr)
  | free (a : Addr)
  | dlclose (h : Addr)
  | logDel (l : Addr)
  | freeShead
  | freeOne (a : Addr)
  | freeFile (a : Addr)
  | opendir
  | closedir
  | exit
deriving DecidableEq, Repr

/-- The heap objects and the five globals of main.c, with the number of signals delivered
and the trace so far. -/
structure Mem where
  nodes : Heap Cycdata
  logs : Heap Unit
  libs : Heap Unit
  cychead : Option Addr
  cycheadnext : Option Addr
  mainld : Option Addr
  shead : Option (List Byte)
  filehead : List (Addr × Filedate)
  signals : Nat
  trace : List Event

namespace Mem

/-- What main has made before it forks off the daemon: the log behind mainld. -/
def init : Mem where
  nodes := Heap.empty
  logs := Heap.empty.alloc ()
  libs := Heap.empty
  cychead := none
  cycheadnext := none
  mainld := some 0
  shead := none
  filehead := []
  signals := 0
  trace := []

def emit (m : Mem) (es : List Event) : Mem := { m with trace := m.trace ++ es }

/-- `*a` of a live node; `none` when `a` was released. -/
def node (m : Mem) (a : Addr) : Option Cycdata := m.nodes.cell a

def update (m : Mem) (a : Addr) (f : Cycdata → Cycdata) : Mem :=
  { m with nodes := m.nodes.modify a f }

def nxt (m : Mem) (a : Addr) : Option (Option Addr) := m.nodes.next Cycdata.next a

/-- `l` is what a walk from cychead through `next` visits. -/
def ListIs (m : Mem) (l : List Addr) : Prop := Chain m.nxt m.cychead l

theorem nxt_eq (m : Mem) (a : Addr) : m.nxt a = (m.node a).map Cycdata.next := rfl

theorem nxt_of_node {m : Mem} {a : Addr} {c : Cycdata} (h : m.node a = some c) :
    m.nxt a = some c.next := by
  simp [nxt_eq, h]

@[simp] theorem node_emit (m : Mem) (es : List Event) (a : Addr) : (m.emit es).node a = m.node a := rfl

theorem node_update_self (m : Mem) (a : Addr) (f : Cycdata → Cycdata) :
    (m.update a f).node a = (m.node a).map f := m.nodes.cell_modify_self a f

theorem node_update_ne (m : Mem) (f : Cycdata → Cycdata) {a b : Addr} (h : b ≠ a) :
    (m.update a f).node b = m.node b := m.nodes.cell_modify_ne f h

theorem nxt_update (m : Mem) (a : Addr) {f : Cycdata → Cycdata} (hf : ∀ c, (f c).next = c.next) :
    (m.update a f).nxt = m.nxt := by
  funext b
  by_cases hb : b = a
  · subst hb
    rw [nxt_eq, nxt_eq, node_update_self]
    cases m.node b <;> simp [hf]
  · rw [nxt_eq, nxt_eq, node_update_ne m f hb]

theorem ListIs.node {m : Mem} {l : List Addr} (h : m.ListIs l) {a : Addr} (ha : a ∈ l) :
    ∃ c, m.node a = some c := by
  obtain ⟨r, hr⟩ := seg_live h a ha
  obtain ⟨c, hc, _⟩ := Option.map_eq_some_iff.mp hr
  exact ⟨c, hc⟩

theorem ListIs.length_le {m : Mem} {l : List Addr} (h : m.ListIs l) : l.length ≤ m.nodes.brk :=
  m.nodes.chain_length_le Cycdata.next h

end Mem

/-- `logDel`: NULL is refused, a handle that was already released is an error of the caller. -/
def logDel (l : Option Addr) (m : Mem) : Option Mem :=
  match l with
  | none => some m
  | some a =>
    match m.logs.cell a with
    | none => none
    | some _ => some ({ m with logs := m.logs.free a }.emit [.logDel a])

def dlclose (h : Addr) (m : Mem) : Option Mem :=
  match m.libs.cell h with
  | none => none
  | some _ => some ({ m with libs := m.libs.free h }.emit [.dlclose h])

/-- The statements that freeCycdata and gameover have in common. -/
inductive Cleanup where
  | fdate | logDel | ld | dlclose | fdlib | next | free
deriving DecidableEq, Repr

/-- One statement on the node `a`; `none` when it touches a released object. -/
def Cleanup.exec (a : Addr) (m : Mem) (s : Cleanup) : Option Mem :=
  match m.node a with
  | none => none
  | some c =>
    match s with
    | .fdate => some (m.update a fun c => { c with fdate := none })
    | .logDel => if c.ld ≠ none ∧ c.ld ≠ m.mainld then TimeTask.logDel c.ld m else some m
    | .ld => some (m.update a fun c => { c with ld := none })
    | .dlclose =>
      match c.libdata.fdlib with
      | none => some m
      | some h => TimeTask.dlclose h m
    | .fdlib => some (m.update a fun c => { c with libdata := { c.libdata with fdlib := none } })
    | .next => some (m.update a fun c => { c with next := none })
    | .free => some ({ m with nodes := m.nodes.free a }.emit [.free a])

def Cleanup.run (a : Addr) : List Cleanup → Mem → Option Mem
  | [], m => some m
  | s :: ss, m => (s.exec a m).bind (run a ss)

end TimeTask
