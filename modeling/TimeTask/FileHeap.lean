import TimeTask.Lib.Spine
import TimeTask.Rejected

/-! readFile, freeFiledate and palyFiledate on a heap of nodes: every `next` and `date` is a
pointer, and a released node cannot be read. -/
namespace TimeTask
open Lib

/-- An onedate or a filedate as malloc hands it out. -/
inductive ConfCell where
  | one (o : Onedate) (next : Option Addr)
  | file (name : List Byte) (date next : Option Addr)
deriving DecidableEq, Repr

abbrev FileHeap := Heap ConfCell

def ConfCell.next : ConfCell → Option Addr
  | .one _ next => next
  | .file _ _ next => next

def ConfCell.setNext (p : Option Addr) : ConfCell → ConfCell
  | .one o _ => .one o p
  | .file name date _ => .file name date p

def ConfCell.setDate (p : Option Addr) : ConfCell → ConfCell
  | .one o next => .one o next
  | .file name _ next => .file name p next

/-- The name field of a zeroed filedate after strncpy. -/
def ConfCell.setName (name : List Byte) : ConfCell → ConfCell
  | .one o next => .one o next
  | .file _ date next => .file name date next

namespace FileHeap

/-- `*p` of an onedate: its data and its `next`. -/
def oneAt (h : FileHeap) (p : Option Addr) : Option (Onedate × Option Addr) :=
  match p.bind h.cell with
  | some (.one o next) => some (o, next)
  | _ => none

/-- `*p` of a filedate: its name, its `date` and its `next`. -/
def fileAt (h : FileHeap) (p : Option Addr) : Option (List Byte × Option Addr × Option Addr) :=
  match p.bind h.cell with
  | some (.file name date next) => some (name, date, next)
  | _ => none

/-- The inner loop of freeFiledate. -/
def freeOnes : Nat → Option Addr → Option Addr → FileHeap → Option (List Event × FileHeap)
  | _, _, none, h => some ([], h)
  | 0, _, some _, _ => none
  | n + 1, onehead, some oneAA, h =>
    match h.oneAt onehead, h.oneAt (some oneAA) with
    | some (_, onehead), some _ =>
      (freeOnes n onehead onehead (h.free oneAA)).map fun r => (.freeOne oneAA :: r.1, r.2)
    | _, _ => none

/-- The outer loop of freeFiledate. -/
def freeFiles : Nat → Option Addr → Option Addr → FileHeap → Option (List Event × FileHeap)
  | _, _, none, h => some ([], h)
  | 0, _, some _, _ => none
  | n + 1, dat, some fileAA, h =>
    match h.fileAt (some fileAA) with
    | none => none
    | some (_, date, _) =>
      match freeOnes h.brk date date h with
      | none => none
      | some (es, h) =>
        match h.fileAt dat, h.fileAt (some fileAA) with
        | some (_, _, dat), some _ =>
          (freeFiles n dat dat (h.free fileAA)).map fun r => (es ++ .freeFile fileAA :: r.1, r.2)
        | _, _ => none

/-- What freeFiledate frees, and the heap it leaves; `none` when it touches a released node. -/
def freeFiledate (dat : Option Addr) (h : FileHeap) : Option (List Event × FileHeap) :=
  freeFiles h.brk dat dat h

end FileHeap

/-- The variables of readFile. filetem and onetem are `none` while they point to the local
filefirst and to the local onehead. -/
structure ReadVars where
  wherenow : Nat
  isnest : Bool
  filefirstDate : Option Addr
  filefirstNext : Option Addr
  filetem : Option Addr
  oneheadNext : Option Addr
  onetem : Option Addr
  heap : FileHeap

namespace ReadVars

/-- `filetem->date = onehead.next` -/
def setDate (s : ReadVars) : Option ReadVars :=
  match s.filetem with
  | none => some { s with filefirstDate := s.oneheadNext }
  | some a => (s.heap.fileAt s.filetem).map fun _ =>
    { s with heap := s.heap.modify a (ConfCell.setDate s.oneheadNext) }

/-- `filetem->next = p` -/
def setFileNext (p : Option Addr) (s : ReadVars) : Option ReadVars :=
  match s.filetem with
  | none => some { s with filefirstNext := p }
  | some a => (s.heap.fileAt s.filetem).map fun _ =>
    { s with heap := s.heap.modify a (ConfCell.setNext p) }

/-- `onetem->next = p` -/
def setOneNext (p : Option Addr) (s : ReadVars) : Option ReadVars :=
  match s.onetem with
  | none => some { s with oneheadNext := p }
  | some a => (s.heap.oneAt s.onetem).map fun _ =>
    { s with heap := s.heap.modify a (ConfCell.setNext p) }

/-- A zeroed filedate behind filetem, with the record of length `len` as its name. -/
def newFile (record : List Byte) (len : Nat) (s : ReadVars) : Option ReadVars :=
  let a := s.heap.brk
  (setFileNext (some a) { s with isnest := false, heap := s.heap.alloc (.file [] none none) }).map
    fun s => { s with
      filetem := some a
      heap := s.heap.modify a (ConfCell.setName (record.take (nameCharNumMax - 1)))
      wherenow := s.wherenow + len + 1
      oneheadNext := none
      onetem := none }

/-- The onedate that fetchInf returned, behind onetem. -/
def newOne (o : Onedate) (len : Nat) (s : ReadVars) : Option ReadVars :=
  let a := s.heap.brk
  (setOneNext (some a) { s with heap := s.heap.alloc (.one o none) }).map
    fun s => { s with onetem := some a, wherenow := s.wherenow + len + 1 }

end ReadVars

structure NodeResult where
  ret : Int
  res : Option (Option Addr)
  heap : FileHeap
  events : List Event

/-- fetchInf returned NULL: what was read so far is freed. -/
def rejectNodes (s : ReadVars) : Option NodeResult :=
  (s.setOneNext none).bind fun s =>
    (s.heap.freeFiledate s.filefirstNext).map fun r => ⟨-2, none, r.2, r.1⟩

def goOn : Option ReadVars → Pass ReadVars (Option NodeResult)
  | none => .leave none
  | some s => .again s

/-- One pass of the loop of readFile on the heap. -/
def nodeBody (dat : List Byte) (s : ReadVars) : Pass ReadVars (Option NodeResult) :=
  match dat[s.wherenow]? with
  | none => .leave none
  | some b =>
    if b = 0 then .leave (s.setDate.map fun s => ⟨0, some s.filefirstNext, s.heap, []⟩)
    else if b = 32 then
      goOn (s.setDate.map fun s => { s with isnest := true, wherenow := s.wherenow + 2 })
    else if s.isnest then
      goOn ((strlen (dat.drop s.wherenow)).bind fun len =>
        s.newFile ((dat.drop s.wherenow).take len) len)
    else
      match fetchInf dat s.wherenow with
      | none => .leave none
      | some none => .leave (rejectNodes s)
      | some (some o) => goOn ((strlen (dat.drop s.wherenow)).bind fun len => s.newOne o len)

def nodeStart (h : FileHeap) : ReadVars := ⟨0, true, none, none, none, none, none, h⟩

/-- readFile on the heap `h` returns `r`. -/
def ReadNodes (dat : Option (List Byte)) (res : Bool) (h : FileHeap) (r : NodeResult) : Prop :=
  match dat, res with
  | some dat, true => Leaves (nodeBody dat) (nodeStart h) (some r)
  | _, _ => r = ⟨-1, none, h, []⟩

def showsOne (c : ConfCell) (o : Onedate) (r : Option Addr) : Prop := c = .one o r

/-- From `p` the entries `es` hang in the heap. -/
def OnesAt (h : FileHeap) (p : Option Addr) (es : List (Addr × Onedate)) : Prop :=
  Spine h.cell showsOne p es none

def showsFile (h : FileHeap) (c : ConfCell) (f : Filedate) (r : Option Addr) : Prop :=
  ∃ d, c = .file f.name d r ∧ OnesAt h d f.date

/-- From `p` the sections `fs` hang in the heap. -/
def FilesAt (h : FileHeap) (p : Option Addr) (fs : List (Addr × Filedate)) : Prop :=
  Spine h.cell (showsFile h) p fs none

theorem oneAt_one {h : FileHeap} {a : Addr} {o : Onedate} {r : Option Addr}
    (hc : h.cell a = some (.one o r)) : h.oneAt (some a) = some (o, r) := by
  simp [FileHeap.oneAt, hc]

theorem fileAt_file {h : FileHeap} {a : Addr} {n : List Byte} {d r : Option Addr}
    (hc : h.cell a = some (.file n d r)) : h.fileAt (some a) = some (n, d, r) := by
  simp [FileHeap.fileAt, hc]

theorem OnesAt.live {h : FileHeap} {p : Option Addr} {es : List (Addr × Onedate)} (he : OnesAt h p es) :
    ∀ e ∈ es, ∃ r, h.cell e.1 = some (.one e.2 r) := by
  intro e hm
  obtain ⟨c, r, hc, hs⟩ := spine_live he e hm
  exact ⟨r, hs ▸ hc⟩

theorem OnesAt.congr {h k : FileHeap} {p : Option Addr} {es : List (Addr × Onedate)} (he : OnesAt h p es)
    (hk : ∀ e ∈ es, k.cell e.1 = h.cell e.1) : OnesAt k p es := spine_congr hk he

theorem mem_fileNodes_self {fs : List (Addr × Filedate)} {f : Addr × Filedate} (hf : f ∈ fs) :
    f.1 ∈ fileNodes fs := List.mem_flatMap.mpr ⟨f, hf, by simp⟩

theorem mem_fileNodes_date {fs : List (Addr × Filedate)} {f : Addr × Filedate} (hf : f ∈ fs)
    {e : Addr × Onedate} (he : e ∈ f.2.date) : e.1 ∈ fileNodes fs :=
  List.mem_flatMap.mpr ⟨f, hf, List.mem_append_left _ (List.mem_map_of_mem he)⟩

theorem spine_files_congr {h k : FileHeap} {p q : Option Addr} {fs : List (Addr × Filedate)}
    (hf : Spine h.cell (showsFile h) p fs q) (hk : ∀ a ∈ fileNodes fs, k.cell a = h.cell a) :
    Spine k.cell (showsFile k) p fs q := by
  refine spine_mono ?_ hf
  intro f hm c r hc hs
  obtain ⟨d, he, hd⟩ := hs
  refine ⟨c, (hk f.1 (mem_fileNodes_self hm)).trans hc, d, he, hd.congr ?_⟩
  intro e hde
  exact hk e.1 (mem_fileNodes_date hm hde)

theorem OnesAt.snoc {h k : FileHeap} {p : Option Addr} {es : List (Addr × Onedate)} {t n : Addr}
    {x o : Onedate} (he : OnesAt h p (es ++ [(t, x)])) (hsame : ∀ e ∈ es, k.cell e.1 = h.cell e.1)
    (ht : k.cell t = some (.one x (some n))) (hn : k.cell n = some (.one o none)) :
    OnesAt k p (es ++ [(t, x)] ++ [(n, o)]) := spine_snoc he hsame ht rfl hn rfl

theorem FilesAt.last {h : FileHeap} {p : Option Addr} {fs : List (Addr × Filedate)} {t : Addr} {f : Filedate}
    (hf : FilesAt h p (fs ++ [(t, f)])) : ∃ d, Spine h.cell (showsFile h) p fs (some t) ∧
      h.cell t = some (.file f.name d none) ∧ OnesAt h d f.date := by
  obtain ⟨r, hl, hr, c, s, hc, ⟨d, he, hd⟩, hs⟩ := spine_append.mp hf
  cases hs
  exact ⟨d, hr ▸ hl, he ▸ hc, hd⟩

theorem FilesAt.of_last {h : FileHeap} {p : Option Addr} {fs : List (Addr × Filedate)} {t : Addr} {f : Filedate}
    {d : Option Addr} (hl : Spine h.cell (showsFile h) p fs (some t))
    (hc : h.cell t = some (.file f.name d none)) (hd : OnesAt h d f.date) :
    FilesAt h p (fs ++ [(t, f)]) :=
  spine_append.mpr ⟨some t, hl, rfl, _, none, hc, ⟨d, rfl, hd⟩, rfl⟩

end TimeTask
