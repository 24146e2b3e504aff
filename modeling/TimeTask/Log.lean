import TimeTask.Lib.Files
import TimeTask.LoadFile

/-! logLog.c: a log handle, its lines and the rotation of its file. -/
namespace TimeTask
open Lib

/-- A piece of a file: the number of the logInf call that wrote it, or `none` for what was
there before the first call. -/
abbrev Chunk := Option Nat × List Byte

abbrev Fs := Files (List Byte) Chunk

def Fs.size (fs : Fs) (p : List Byte) : Option Nat := (fs p).map fun f => (f.map fun c => c.2.length).sum

/-- `fg` tells whether the stream is open. -/
structure Logdata where
  fg : Bool
  filename : List Byte
  maxsize : Int
deriving DecidableEq, Repr

/-- The files and one handle; `none` once the handle was released. -/
structure LogState where
  fs : Fs
  ld : Option Logdata
  calls : Nat

/-- The arguments of one logInf call, the clock, and the answers of stat, rename and fopen. -/
structure LogCall where
  time : Int
  file : List Byte
  line : Nat
  type : Int
  msg : List Byte
  stat : Bool
  rename : Bool
  fopen : Bool

/-- The bound in bytes that logInit keeps in an int; its argument counts kilobytes. -/
def logMaxsize (size : Int) : Int := toInt ((if size > 1024 then 1024 else size) * 1024)

theorem logMaxsize_lt (size : Int) : logMaxsize size < 2 ^ 31 := by
  have h := Int.bmod_lt (x := (if size > 1024 then 1024 else size) * 1024) (m := 2 ^ 32) (by decide)
  rw [logMaxsize, toInt]
  omega

theorem logMaxsize_ge {size : Int} (h : 1 ≤ size) : 1024 ≤ logMaxsize size := by
  rw [logMaxsize, toInt_eq] <;> split_ifs <;> omega

/-- `mem` are the answers of the two mallocs. -/
def logInit (path : Option (List Byte)) (size : Int) (fopen : Bool) (mem : Bool × Bool) (fs : Fs) :
    Option LogState :=
  match path with
  | none => none
  | some path =>
    if fopen && mem.1 && mem.2 then some ⟨fs.touch path, some ⟨true, path, logMaxsize size⟩, 0⟩
    else none

/-- logDel on a handle; `none` when it was released before. -/
def LogState.logDel (s : LogState) : Option LogState := s.ld.map fun _ => { s with ld := none }

/-- `" [ERROR]"`, `" [INF]  "` and `" [WARN] "`. -/
def levelTag (type : Int) : List Byte :=
  if type = 1 then [32, 91, 69, 82, 82, 79, 82, 93]
  else if type = 2 then [32, 91, 73, 78, 70, 93, 32, 32]
  else if type = 3 then [32, 91, 87, 65, 82, 78, 93, 32]
  else []

def digits (n : Nat) : List Byte := (Nat.toDigits 10 n).map fun c => UInt8.ofNat c.toNat

/-- `sprintf(temchar," [%s:%d] ",file,line)` -/
def placeTag (c : LogCall) : List Byte := [32, 91] ++ c.file ++ [58] ++ digits c.line ++ [93, 32]

/-- The time stamp in brackets: the last byte of the text of asctime is overwritten. -/
def stamp (tim : List Byte) : List Byte := (91 :: tim).dropLast ++ [93]

/-- The line in buff; `none` when one of the two buffers of 1024 bytes overflows. -/
def compose (tim : List Byte) (c : LogCall) : Option (List Byte) :=
  let buff := stamp tim ++ levelTag c.type ++ placeTag c ++ c.msg ++ [10]
  if (placeTag c).length < 1024 ∧ c.msg.length < 1024 ∧ buff.length < 1024 then some buff else none

def charChange (dat : List Byte) (oldC newC : Byte) : List Byte :=
  dat.map fun b => if b = oldC then newC else b

/-- `st` is the size that stat reports, if it succeeds. -/
def isneedcp (st : Option Nat) (size : Int) : Int :=
  if size < 1024 then -1
  else
    match st with
    | none => -1
    | some filesize => if toInt filesize ≥ size - 1024 then 1 else 0

/-- The rename target: `sprintf(temchar,"%s_%s.log",filename,tim)` with the byte in front of
the last four replaced, and its spaces. -/
def archiveName (filename tim : List Byte) : List Byte :=
  let temchar := filename ++ 95 :: tim ++ [46, 108, 111, 103]
  charChange (temchar.set (temchar.length - 5) 95) 32 95

/-- logInf on a handle; `none` when it was released or a buffer overflows. -/
def logInf (asctime : Int → List Byte) (c : LogCall) (s : LogState) : Option (Int × LogState) :=
  match s.ld with
  | none => none
  | some ld =>
    if !ld.fg then some (-1, s)
    else
      let tim := asctime c.time
      match compose tim c with
      | none => none
      | some buff =>
        let fwrite (fs : Fs) : LogState :=
          { s with fs := fs.append ld.filename (some s.calls, buff), calls := s.calls + 1 }
        if isneedcp (if c.stat then s.fs.size ld.filename else none) ld.maxsize = 1 then
          if 1024 ≤ ld.filename.length + tim.length + 5 then none
          else
            let fs := if c.rename then s.fs.rename ld.filename (archiveName ld.filename tim) else s.fs
            if c.fopen then some (0, fwrite (fs.touch ld.filename))
            else some (-2, { s with fs := fs, ld := none, calls := s.calls + 1 })
        else some (0, fwrite s.fs)

def logRun (asctime : Int → List Byte) : List LogCall → LogState → Option LogState
  | [], s => some s
  | c :: cs, s => (logInf asctime c s).bind fun q => logRun asctime cs q.2

theorem logRun_append (asctime : Int → List Byte) (cs ds : List LogCall) (s : LogState) :
    logRun asctime (cs ++ ds) s = (logRun asctime cs s).bind (logRun asctime ds) := by
  induction cs generalizing s with
  | nil => rfl
  | cons c cs ih =>
    cases h : logInf asctime c s with
    | none => simp [logRun, h]
    | some q => simpa [logRun, h] using ih q.2

theorem Fs.size_append (fs : Fs) (p : List Byte) (c : Chunk) :
    Fs.size (fs.append p c) p = some ((Fs.size fs p).getD 0 + c.2.length) := by
  simp only [Fs.size, Files.append, if_true, Option.map_some]
  cases fs p <;> simp

theorem Fs.size_touch (fs : Fs) (p : List Byte) :
    Fs.size (fs.touch p) p = some ((Fs.size fs p).getD 0) := by
  simp only [Fs.size, Files.touch, if_true, Option.map_some]
  cases fs p <;> simp

theorem archiveName_length (filename tim : List Byte) :
    (archiveName filename tim).length = filename.length + tim.length + 5 := by
  simp [archiveName, charChange]
  omega

theorem archiveName_ne (filename tim : List Byte) : filename ≠ archiveName filename tim := by
  intro h
  have hl := congrArg List.length h
  rw [archiveName_length] at hl
  omega

end TimeTask
