import TimeTask.Archive

/-! logInf on its two arrays buff and temchar, and the lines that main.c writes with it. -/
namespace TimeTask
open Lib

/-- `sprintf` or `vsprintf` of the text into the zeros of temchar, and `strcat(buff,temchar)`. -/
def addText (buff text : List Byte) : Option (List Byte) :=
  (strcpy (zeros 1024) text).bind fun temchar => (readText temchar).bind fun t => strcat buff t

/-- The part of logInf that builds the line in buff; `none` when a write leaves an array. -/
def logLine (tim : List Byte) (c : LogCall) : Option (List Byte) :=
  let tennum := tim.length
  (overwrite (zeros 1024) 0 [91]).bind fun buff =>
    (strcat buff tim).bind fun buff =>
      (overwrite buff tennum [93]).bind fun buff =>
        (strcat buff (levelTag c.type)).bind fun buff =>
          (addText buff (placeTag c)).bind fun buff =>
            (addText buff c.msg).bind fun buff => strcat buff [10]

/-- logInf on its arrays; `none` when it was released or a write leaves an array. -/
def logInfArrays (clock : Int → Tm) (c : LogCall) (s : LogState) : Option (Int × LogState) :=
  match s.ld with
  | none => none
  | some ld =>
    if !ld.fg then some (-1, s)
    else
      let tim := asctime (clock c.time)
      ((logLine tim c).bind readText).bind fun buff =>
        let fwrite (fs : Fs) : LogState :=
          { s with fs := fs.append ld.filename (some s.calls, buff), calls := s.calls + 1 }
        if isneedcp (if c.stat then s.fs.size ld.filename else none) ld.maxsize = 1 then
          (rotationTarget ld.filename tim).bind fun temchar =>
            let fs := if c.rename then s.fs.rename ld.filename temchar else s.fs
            if c.fopen then some (0, fwrite (fs.touch ld.filename))
            else some (-2, { s with fs := fs, ld := none, calls := s.calls + 1 })
        else some (0, fwrite s.fs)

/-- The line that compose makes when it fits. -/
def logText (tim : List Byte) (c : LogCall) : List Byte :=
  stamp tim ++ levelTag c.type ++ placeTag c ++ c.msg ++ [10]

inductive Arg where
  | str (s : List Byte)
  | int (n : Int)
deriving DecidableEq, Repr

/-- The text of vsprintf for the conversions `%s` and `%d`; `none` when the arguments are not
those of the format. -/
def vsprintf : List Byte → List Arg → Option (List Byte)
  | [], [] => some []
  | 37 :: 115 :: format, .str s :: args => (vsprintf format args).map fun t => s ++ t
  | 37 :: 100 :: format, .int n :: args => (vsprintf format args).map fun t => decimal n ++ t
  | b :: format, args => if b = 37 then none else (vsprintf format args).map fun t => b :: t
  | [], _ :: _ => none

def Arg.length : Arg → Nat
  | .str s => s.length
  | .int n => (decimal n).length

def LOGERR : Int := 1
def LOGINF : Int := 2
def LOGWAR : Int := 3

structure Site where
  line : Nat
  type : Int
  format : String
deriving DecidableEq, Repr

def mainSites : List Site := [
  ⟨46, LOGWAR, "%s seach %d"⟩,
  ⟨57, LOGWAR, "%s howdo %d"⟩,
  ⟨68, LOGWAR, "%s send %d"⟩,
  ⟨205, LOGWAR, "start go gameover"⟩,
  ⟨651, LOGERR, "toSetCycdata fhead or chead is NULL"⟩,
  ⟨668, LOGERR, "filedate has same name %s"⟩,
  ⟨679, LOGERR, "%s not have libso to fit"⟩,
  ⟨692, LOGERR, "%s is not use"⟩,
  ⟨698, LOGERR, "freeCycdata is err %d"⟩,
  ⟨715, LOGERR, "loadLib--dirch is NULL"⟩,
  ⟨721, LOGERR, "loadLib--opendir get NULL"⟩,
  ⟨733, LOGWAR, "--libname is to less or big %d"⟩,
  ⟨738, LOGWAR, "--libname is not lib start or .so end %s"⟩,
  ⟨762, LOGERR, "--dlopen get NULL %s"⟩,
  ⟨775, LOGWAR, "--dlsym sysinit null"⟩,
  ⟨783, LOGWAR, "--dlsym syslogin null"⟩,
  ⟨791, LOGWAR, "--dlsym sysseach null"⟩,
  ⟨800, LOGWAR, "--dlsym syshowdo null"⟩,
  ⟨809, LOGWAR, "--dlsym syssend null"⟩,
  ⟨817, LOGERR, "--dlsym sysdeldata null"⟩,
  ⟨824, LOGINF, "--lib name is %s"⟩,
  ⟨827, LOGERR, "%s lib all method null"⟩,
  ⟨835, LOGERR, "--cycmk get null"⟩,
  ⟨855, LOGERR, "%s not has avail lib"⟩,
  ⟨859, LOGINF, "%s has %d avail lib"⟩,
  ⟨868, LOGERR, "TimeInit arc cyctem is NULL"⟩,
  ⟨877, LOGERR, "%s sysinit err %d"⟩,
  ⟨887, LOGERR, "%s syslogin err %d"⟩,
  ⟨959, LOGERR, "setsid is err"⟩,
  ⟨965, LOGERR, "main open() err %d"⟩,
  ⟨993, LOGINF, "conf file is %s"⟩,
  ⟨1004, LOGERR, "loadFile is err"⟩,
  ⟨1015, LOGERR, "readFile is err"⟩,
  ⟨1018, LOGINF, "readFile is ok"⟩,
  ⟨1023, LOGINF, "libdir  is %s"⟩,
  ⟨1035, LOGERR, "loadLib is err %d"⟩,
  ⟨1038, LOGINF, "loadLib is ok"⟩,
  ⟨1045, LOGERR, "toSetCycdata is err %d"⟩,
  ⟨1048, LOGINF, "toSetCycdata is ok"⟩,
  ⟨1051, LOGINF, "--start TimeInit"⟩,
  ⟨1059, LOGERR, "TimeInit is err %d"⟩,
  ⟨1065, LOGINF, "TimeInit is ok"⟩]

/-- A call that main.c can make: one of its lines, with arguments for its format. -/
structure MainCall where
  site : Site
  listed : site ∈ mainSites
  args : List Arg
  nulFree : ∀ s, Arg.str s ∈ args → NulFree s
  msg : List Byte
  expands : vsprintf (ascii site.format) args = some msg

def MainCall.logCall (m : MainCall) (time : Int) (stat rename fopen : Bool) : LogCall :=
  ⟨time, ascii "main.c", m.site.line, m.site.type, m.msg, stat, rename, fopen⟩

theorem addText_writes {t text buff : List Byte} (h : Text 1024 t buff) (htext : NulFree text) :
    Writes 1024 (t ++ text) (addText buff text) := by
  have hcopy := strcpy_zeros 1024 htext
  refine hcopy.bind (by simp) fun temchar ht => ?_
  rw [ht.read, Option.bind_some]
  exact strcat_writes h htext

theorem nulFree_levelTag (type : Int) : NulFree (levelTag type) := by
  rw [levelTag]
  split_ifs <;> decide

theorem nulFree_placeTag {c : LogCall} (h : NulFree c.file) : NulFree (placeTag c) := by
  have hopen : NulFree [32, 91] := by decide
  have hcolon : NulFree [58] := by decide
  have hclose : NulFree [93, 32] := by decide
  exact (((hopen.append h).append hcolon).append (plain_digits c.line).nulFree).append hclose

theorem stamp_eq (body : List Byte) : stamp (body ++ [10]) = [91] ++ body ++ [93] := by
  rw [stamp, ← List.cons_append, List.dropLast_concat]
  rfl

theorem logText_stamped (body : List Byte) (c : LogCall) : (logText (body ++ [10]) c).length =
    (body ++ [10]).length + 1 + (levelTag c.type).length + (placeTag c).length + c.msg.length + 1 := by
  simp only [logText, stamp_eq, List.length_append, List.length_singleton]
  omega

/-- The line is in buff when it has at most 1023 bytes, else a write leaves an array. -/
theorem logLine_writes {body : List Byte} (hbody : NulFree body) {c : LogCall} (hfile : NulFree c.file)
    (hmsg : NulFree c.msg) : Writes 1024 (logText (body ++ [10]) c) (logLine (body ++ [10]) c) := by
  obtain ⟨buff, hput, hopen⟩ := text_singleton (n := 1024) (b := 91) (by decide) (by decide)
  have hline : NulFree [10] := by decide
  have hpos : (body ++ [10]).length = ([91] ++ body).length := by simp
  have hlen := logText_stamped body c
  rw [logLine, hput, Option.bind_some]
  refine (strcat_writes hopen (hbody.append hline)).bind ?_ fun buff htim => ?_
  · rw [hlen, List.length_append, List.length_singleton]
    omega
  rw [← List.append_assoc] at htim
  obtain ⟨buff, hset, hstamp⟩ := htim.set (b := 93) (by decide)
  rw [← stamp_eq body] at hstamp
  simp only [hpos, hset, Option.bind_some]
  refine (strcat_writes hstamp (nulFree_levelTag c.type)).bind (by simp [logText]) fun buff hlevel => ?_
  refine (addText_writes hlevel (nulFree_placeTag hfile)).bind (by simp [logText]) fun buff hplace => ?_
  refine (addText_writes hplace hmsg).bind (by simp [logText]) fun buff htext => ?_
  exact strcat_writes htext hline

theorem compose_eq (tim : List Byte) (c : LogCall) :
    compose tim c = if (logText tim c).length < 1024 then some (logText tim c) else none := by
  have hplace : (placeTag c).length ≤ (logText tim c).length := by simp [logText]; omega
  have hmsg : c.msg.length ≤ (logText tim c).length := by simp [logText]; omega
  rw [compose]
  by_cases h : (logText tim c).length < 1024
  · rw [if_pos h]
    exact if_pos ⟨by omega, by omega, h⟩
  · rw [if_neg h]
    exact if_neg fun hc => h hc.2.2

theorem logLine_read {body : List Byte} (hbody : NulFree body) {c : LogCall} (hfile : NulFree c.file)
    (hmsg : NulFree c.msg) : (logLine (body ++ [10]) c).bind readText = compose (body ++ [10]) c := by
  rw [(logLine_writes hbody hfile hmsg).read, compose_eq]

/-- On its arrays logInf does what the model of its texts says. -/
theorem logInfArrays_eq (clock : Int → Tm) {c : LogCall} (hfile : NulFree c.file) (hmsg : NulFree c.msg)
    {s : LogState} (hname : ∀ ld, s.ld = some ld → NulFree ld.filename) :
    logInfArrays clock c s = logInf (fun t => asctime (clock t)) c s := by
  have hbody := (plain_asctimeText (clock c.time)).nulFree
  have hline := logLine_read hbody hfile hmsg
  rw [← asctime] at hline
  rw [logInfArrays, logInf]
  cases hld : s.ld with
  | none => rfl
  | some ld =>
    have htarget := rotationTarget_eq (hname ld hld) hbody
    rw [← asctime] at htarget
    simp only [hline, htarget]
    cases compose (asctime (clock c.time)) c with
    | none => rfl
    | some buff =>
      by_cases hlong : 1024 ≤ ld.filename.length + (asctime (clock c.time)).length + 5
      · simp only [Option.bind_some, if_pos hlong, if_neg (Nat.not_lt.mpr hlong), Option.bind_none]
      · simp only [Option.bind_some, if_neg hlong, if_pos (Nat.not_le.mp hlong)]

theorem logInfArrays_isSome (clock : Int → Tm) {c : LogCall} (hfile : NulFree c.file) (hmsg : NulFree c.msg)
    {s : LogState} {ld : Logdata} (hld : s.ld = some ld) (hopen : ld.fg = true) (hname : NulFree ld.filename) :
    (logInfArrays clock c s).isSome ↔ (logText (asctime (clock c.time)) c).length < 1024 ∧
      (isneedcp (if c.stat then s.fs.size ld.filename else none) ld.maxsize = 1 →
        ld.filename.length + (asctime (clock c.time)).length ≤ 1018) := by
  have hnames : ∀ x, s.ld = some x → NulFree x.filename := by
    intro x hx
    rw [hld, Option.some.injEq] at hx
    exact hx ▸ hname
  rw [logInfArrays_eq clock hfile hmsg hnames]
  have hcomp := compose_eq (asctime (clock c.time)) c
  by_cases hfit : (logText (asctime (clock c.time)) c).length < 1024
  · rw [if_pos hfit] at hcomp
    by_cases hrot : isneedcp (if c.stat then s.fs.size ld.filename else none) ld.maxsize = 1
    · by_cases hlong : 1024 ≤ ld.filename.length + (asctime (clock c.time)).length + 5
      · refine iff_of_false (by simp [logInf, hld, hopen, hcomp, hrot, hlong]) fun h => ?_
        have hshort := h.2 hrot
        omega
      · refine iff_of_true ?_ ⟨hfit, fun _ => by omega⟩
        cases hfopen : c.fopen <;> simp [logInf, hld, hopen, hcomp, hrot, hlong, hfopen]
    · exact iff_of_true (by simp [logInf, hld, hopen, hcomp, hrot]) ⟨hfit, fun h => absurd h hrot⟩
  · rw [if_neg hfit] at hcomp
    exact iff_of_false (by simp [logInf, hld, hopen, hcomp]) fun h => hfit h.1

theorem vsprintf_text {text : List Byte} (h : 37 ∉ text) (format : List Byte) (args : List Arg) :
    vsprintf (text ++ format) args = (vsprintf format args).map fun t => text ++ t := by
  induction text with
  | nil => simp
  | cons b text ih =>
    rw [List.mem_cons, not_or] at h
    have hb : b ≠ 37 := fun he => h.1 he.symm
    rw [List.cons_append, vsprintf, if_neg hb, ih h.2, Option.map_map]
    · rfl
    · intro _ _ _ _ he
      exact absurd he hb
    · intro _ _ _ _ he
      exact absurd he hb

/-- Induction over an expansion: by its arguments and its text. -/
theorem vsprintf_rec {P : List Byte → List Arg → List Byte → Prop} (nil : P [] [] [])
    (str : ∀ format s args t, P format args t → P (37 :: 115 :: format) (.str s :: args) (s ++ t))
    (int : ∀ format n args t, P format args t → P (37 :: 100 :: format) (.int n :: args) (decimal n ++ t))
    (text : ∀ b format args t, P format args t → P (b :: format) args (b :: t))
    {format : List Byte} {args : List Arg} {msg : List Byte} (h : vsprintf format args = some msg) :
    P format args msg := by
  induction format, args using vsprintf.induct generalizing msg with
  | case1 =>
    rw [vsprintf, Option.some.injEq] at h
    exact h ▸ nil
  | case2 format s args ih =>
    rw [vsprintf] at h
    obtain ⟨t, ht, hmsg⟩ := Option.map_eq_some_iff.mp h
    exact hmsg ▸ str format s args t (ih ht)
  | case3 format n args ih =>
    rw [vsprintf] at h
    obtain ⟨t, ht, hmsg⟩ := Option.map_eq_some_iff.mp h
    exact hmsg ▸ int format n args t (ih ht)
  | case4 format args hs hd =>
    rw [vsprintf, if_pos rfl] at h
    · cases h
    · exact hs
    · exact hd
  | case5 b format args hs hd hb ih =>
    rw [vsprintf, if_neg hb] at h
    · obtain ⟨t, ht, hmsg⟩ := Option.map_eq_some_iff.mp h
      exact hmsg ▸ text b format args t (ih ht)
    · exact hs
    · exact hd
  | case6 a args =>
    rw [vsprintf] at h
    cases h

theorem vsprintf_length {format : List Byte} {args : List Arg} {msg : List Byte}
    (h : vsprintf format args = some msg) :
    msg.length + 2 * args.length = format.length + (args.map Arg.length).sum := by
  refine vsprintf_rec (P := fun format args msg =>
    msg.length + 2 * args.length = format.length + (args.map Arg.length).sum) rfl ?_ ?_ ?_ h
  · intro format s args t ih
    simp only [List.length_append, List.length_cons, List.map_cons, List.sum_cons, Arg.length]
    omega
  · intro format n args t ih
    simp only [List.length_append, List.length_cons, List.map_cons, List.sum_cons, Arg.length]
    omega
  · intro b format args t ih
    simp only [List.length_cons]
    omega

theorem vsprintf_nulFree {format : List Byte} {args : List Arg} {msg : List Byte} (hf : NulFree format)
    (hargs : ∀ s, Arg.str s ∈ args → NulFree s) (h : vsprintf format args = some msg) : NulFree msg := by
  refine vsprintf_rec (P := fun format args msg =>
    NulFree format → (∀ s, Arg.str s ∈ args → NulFree s) → NulFree msg) (fun hf _ => hf) ?_ ?_ ?_ h hf hargs
  · intro format s args t ih hf hargs
    have hrest := ih (fun b hb => hf b (by simp [hb])) fun s hs => hargs s (List.mem_cons_of_mem _ hs)
    exact (hargs s List.mem_cons_self).append hrest
  · intro format n args t ih hf hargs
    have hrest := ih (fun b hb => hf b (by simp [hb])) fun s hs => hargs s (List.mem_cons_of_mem _ hs)
    exact (plain_decimal n).nulFree.append hrest
  · intro b format args t ih hf hargs
    rw [NulFree, List.forall_mem_cons] at hf
    exact List.forall_mem_cons.mpr ⟨hf.1, ih hf.2 hargs⟩

theorem mainSites_tagged : ∀ site ∈ mainSites, (levelTag site.type).length = 8 ∧ NulFree (ascii site.format) := by
  decide

theorem MainCall.msg_nulFree (m : MainCall) : NulFree m.msg :=
  vsprintf_nulFree (mainSites_tagged m.site m.listed).2 m.nulFree m.expands

theorem MainCall.logText_length (m : MainCall) (tm : Tm) (time : Int) (stat rename fopen : Bool) :
    (logText (asctime tm) (m.logCall time stat rename fopen)).length + 2 * m.args.length =
      (asctime tm).length + (digits m.site.line).length + (ascii m.site.format).length +
        (m.args.map Arg.length).sum + 21 := by
  have htext := logText_stamped (asctimeText tm) (m.logCall time stat rename fopen)
  have hmsg := vsprintf_length m.expands
  have htag : (levelTag (m.logCall time stat rename fopen).type).length = 8 :=
    (mainSites_tagged m.site m.listed).1
  have hplace : (placeTag (m.logCall time stat rename fopen)).length = (digits m.site.line).length + 11 := by
    have hfile : (ascii "main.c").length = 6 := by decide
    simp [placeTag, logCall, hfile]
    omega
  have hbody : (m.logCall time stat rename fopen).msg = m.msg := rfl
  rw [← asctime, htag, hplace, hbody] at htext
  omega

/-- The writes of a call of main.c stay in the two arrays exactly when the line and, for a
rotation, the name of the log are short enough. -/
theorem logInfArrays_main_iff (m : MainCall) (clock : Int → Tm) (time : Int) (stat rename fopen : Bool)
    (s : LogState) (ld : Logdata) (hld : s.ld = some ld) (hopen : ld.fg = true) (hname : NulFree ld.filename) :
    (logInfArrays clock (m.logCall time stat rename fopen) s).isSome ↔
      (asctime (clock time)).length + (digits m.site.line).length + (ascii m.site.format).length +
        (m.args.map Arg.length).sum ≤ 1002 + 2 * m.args.length ∧
      (isneedcp (if stat then s.fs.size ld.filename else none) ld.maxsize = 1 →
        ld.filename.length + (asctime (clock time)).length ≤ 1018) := by
  have hfile : NulFree (m.logCall time stat rename fopen).file := by
    change NulFree (ascii "main.c")
    decide
  have hlen := m.logText_length (clock time) time stat rename fopen
  rw [logInfArrays_isSome clock hfile m.msg_nulFree hld hopen hname]
  refine and_congr ?_ Iff.rfl
  change (logText (asctime (clock time)) (m.logCall time stat rename fopen)).length < 1024 ↔ _
  omega

/-- The call that logs the value of -c. -/
def confCall (confwhere : List Byte) (h : NulFree confwhere) : MainCall where
  site := ⟨993, LOGINF, "conf file is %s"⟩
  listed := by decide
  args := [.str confwhere]
  nulFree s hs := by
    rw [List.mem_singleton, Arg.str.injEq] at hs
    exact hs ▸ h
  msg := ascii "conf file is " ++ confwhere
  expands := by
    have hformat : ascii "conf file is %s" = ascii "conf file is " ++ [37, 115] := by decide
    rw [hformat, vsprintf_text (by decide), vsprintf]
    simp [vsprintf]

def mainLog : LogState :=
  ⟨Files.touch (fun _ => none) (ascii "./logs/main.log"),
    some ⟨true, ascii "./logs/main.log", logMaxsize 100⟩, 0⟩

theorem logInfArrays_main_iff_conf : (logInfArrays (fun _ => aTime)
    ((confCall (ascii "a.conf") (by decide)).logCall 0 true true true) mainLog).isSome ↔
      (asctime aTime).length + (digits 993).length + (ascii "conf file is %s").length +
        ([Arg.str (ascii "a.conf")].map Arg.length).sum ≤ 1002 + 2 * 1 ∧
      (isneedcp (if true then mainLog.fs.size (ascii "./logs/main.log") else none) (logMaxsize 100) = 1 →
        (ascii "./logs/main.log").length + (asctime aTime).length ≤ 1018) :=
  logInfArrays_main_iff (confCall (ascii "a.conf") (by decide)) (fun _ => aTime) 0 true true true mainLog
    ⟨true, ascii "./logs/main.log", logMaxsize 100⟩ rfl rfl (by decide)

theorem nulFree_replicate (n : Nat) : NulFree (List.replicate n 97) := by
  intro b hb
  rw [(List.mem_replicate.mp hb).2]
  decide

theorem confCall_length (confwhere : List Byte) (h : NulFree confwhere) (tm : Tm) (time : Int)
    (stat rename fopen : Bool) :
    (logText (asctime tm) ((confCall confwhere h).logCall time stat rename fopen)).length =
      (asctime tm).length + confwhere.length + 37 := by
  have hlen := (confCall confwhere h).logText_length tm time stat rename fopen
  have hargs : ((confCall confwhere h).args.map Arg.length).sum = confwhere.length := by
    simp [confCall, Arg.length]
  have hnum : (confCall confwhere h).args.length = 1 := rfl
  have hsite : (confCall confwhere h).site = ⟨993, LOGINF, "conf file is %s"⟩ := rfl
  have hformat : (ascii (confCall confwhere h).site.format).length = 15 := by
    rw [hsite]
    decide
  have hline : (digits (confCall confwhere h).site.line).length = 3 := by
    rw [hsite]
    decide
  omega

theorem confCall_overflows (confwhere : List Byte) (h : NulFree confwhere) (hlong : 1000 ≤ confwhere.length) :
    ¬ (logInfArrays (fun _ => aTime) ((confCall confwhere h).logCall 0 true true true) mainLog).isSome := by
  have hfile : NulFree ((confCall confwhere h).logCall 0 true true true).file := by
    change NulFree (ascii "main.c")
    decide
  have hmain : mainLog.ld = some ⟨true, ascii "./logs/main.log", logMaxsize 100⟩ := rfl
  have hlen := confCall_length confwhere h aTime 0 true true true
  rw [logInfArrays_isSome (fun _ => aTime) hfile (MainCall.msg_nulFree _) hmain rfl (by decide)]
  intro hfit
  have hline := hfit.1
  change (logText (asctime aTime) ((confCall confwhere h).logCall 0 true true true)).length < 1024 at hline
  omega

/-- With a value of -c of a thousand bytes the line leaves its array. -/
theorem logInfArrays_overflows : ¬ (logInfArrays (fun _ => aTime)
    ((confCall (List.replicate 1000 97) (nulFree_replicate 1000)).logCall 0 true true true) mainLog).isSome :=
  confCall_overflows _ _ (Nat.le_of_eq List.length_replicate.symm)

end TimeTask
