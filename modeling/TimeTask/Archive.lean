import TimeTask.Lib.Buffer
import TimeTask.Log
import TimeTask.Options

/-! The rename target of a rotation: where the archive of a log is put. -/
namespace TimeTask
open Lib

/-- The number with `b` in front up to a width: `%.2d` and `%3d`. -/
def padded (b : Byte) (width n : Nat) : List Byte := List.replicate (width - (digits n).length) b ++ digits n

/-- `%d` -/
def decimal (n : Int) : List Byte := if n < 0 then 45 :: digits n.natAbs else digits n.natAbs

/-- The fields of `struct tm` that asctime prints, as localtime fills them. -/
structure Tm where
  tm_sec : Fin 61
  tm_min : Fin 60
  tm_hour : Fin 24
  tm_mday : Fin 32
  tm_mon : Fin 12
  tm_year : Int
  tm_wday : Fin 7

def dayName (d : Fin 7) : List Byte :=
  ascii (["Sun", "Mon", "Tue", "Wed", "Thu", "Fri", "Sat"].get d)

def monthName (m : Fin 12) : List Byte :=
  ascii (["Jan", "Feb", "Mar", "Apr", "May", "Jun", "Jul", "Aug", "Sep", "Oct", "Nov", "Dec"].get m)

/-- `"%.3s %.3s%3d %.2d:%.2d:%.2d %d"` -/
def asctimeText (tm : Tm) : List Byte :=
  dayName tm.tm_wday ++ [32] ++ monthName tm.tm_mon ++ padded 32 3 tm.tm_mday ++ [32] ++
    padded 48 2 tm.tm_hour ++ [58] ++ padded 48 2 tm.tm_min ++ [58] ++ padded 48 2 tm.tm_sec ++ [32] ++
    decimal (1900 + tm.tm_year)

/-- The text of asctime ends in a newline. -/
def asctime (tm : Tm) : List Byte := asctimeText tm ++ [10]

/-- The part of logInf that builds the target in temchar; `none` when it leaves the array. -/
def rotationTarget (filename tim : List Byte) : Option (List Byte) :=
  (strcpy (zeros 1024) (filename ++ 95 :: tim ++ [46, 108, 111, 103])).bind fun temchar =>
    (readText temchar).bind fun text =>
      let tennum := text.length - 5
      (overwrite temchar tennum [95]).bind fun temchar =>
        (readText temchar).map fun text => charChange text 32 95

/-- The target is the log's name, `_`, a suffix and `.log`. -/
def Beside (filename target : List Byte) : Prop :=
  ∃ suffix, target = filename ++ 95 :: suffix ++ [46, 108, 111, 103] ∧
    32 ∉ suffix ∧ 10 ∉ suffix ∧ 47 ∉ suffix

/-- The directory part of a path, with its slash. -/
def dirPart (path : List Byte) : List Byte := (path.reverse.dropWhile fun b => b ≠ 47).reverse

/-- No byte of the text ends a string, a line or a directory. -/
def Plain (s : List Byte) : Prop := ∀ b ∈ s, b ≠ 0 ∧ b ≠ 10 ∧ b ≠ 47

instance (s : List Byte) : Decidable (Plain s) := List.decidableBAll (fun b => b ≠ 0 ∧ b ≠ 10 ∧ b ≠ 47) s

theorem Plain.append {s t : List Byte} (hs : Plain s) (ht : Plain t) : Plain (s ++ t) :=
  fun b hb => (List.mem_append.mp hb).elim (hs b) (ht b)

theorem Plain.nulFree {s : List Byte} (h : Plain s) : NulFree s := fun b hb => (h b hb).1

theorem plain_digits (n : Nat) : Plain (digits n) := by
  intro b hb
  obtain ⟨c, hc, hcb⟩ := List.mem_map.mp hb
  have hd : c.isDigit = true := Nat.isDigit_of_mem_toDigits (by decide) (by decide) hc
  have hrange : 48 ≤ c.toNat ∧ c.toNat ≤ 57 := by
    simpa [Char.isDigit, UInt32.le_iff_toNat_le] using hd
  have hbyte : b.toNat = c.toNat := by
    rw [← hcb, UInt8.toNat_ofNat']
    omega
  refine ⟨fun he => ?_, fun he => ?_, fun he => ?_⟩ <;>
    · rw [he] at hbyte
      simp at hbyte
      omega

theorem plain_padded {b : Byte} (hb : Plain [b]) (width n : Nat) : Plain (padded b width n) := by
  refine Plain.append (fun c hc => ?_) (plain_digits n)
  rw [(List.mem_replicate.mp hc).2]
  exact hb b List.mem_cons_self

theorem plain_decimal (n : Int) : Plain (decimal n) := by
  rw [decimal]
  split_ifs
  · exact Plain.append (s := [45]) (by decide) (plain_digits _)
  · exact plain_digits _

theorem plain_dayName : ∀ d, Plain (dayName d) := by decide

theorem plain_monthName : ∀ m, Plain (monthName m) := by decide

theorem plain_asctimeText (tm : Tm) : Plain (asctimeText tm) := by
  have hspace : Plain [32] := by decide
  have hcolon : Plain [58] := by decide
  have hmday : Plain (padded 32 3 tm.tm_mday) := plain_padded (by decide) _ _
  have htwo : ∀ n, Plain (padded 48 2 n) := plain_padded (by decide) 2
  have hdate := (((plain_dayName tm.tm_wday).append hspace).append (plain_monthName tm.tm_mon)).append hmday
  have htime := ((((htwo tm.tm_hour).append hcolon).append (htwo tm.tm_min)).append hcolon).append (htwo tm.tm_sec)
  have hall := ((hdate.append hspace).append htime).append (hspace.append (plain_decimal (1900 + tm.tm_year)))
  simpa only [asctimeText, List.append_assoc] using hall

theorem charChange_free {s : List Byte} (h : 32 ∉ s) : charChange s 32 95 = s := by
  refine (List.map_congr_left fun b hb => if_neg ?_).trans (List.map_id s)
  intro he
  exact h (he ▸ hb)

theorem charChange_no_space (s : List Byte) : 32 ∉ charChange s 32 95 := by
  intro h
  obtain ⟨b, -, hb⟩ := List.mem_map.mp h
  split_ifs at hb with he
  · exact absurd hb (by decide)
  · exact he hb

theorem charChange_not_mem {s : List Byte} {x : Byte} (hx : x ≠ 95) (h : x ∉ s) : x ∉ charChange s 32 95 := by
  intro hm
  obtain ⟨b, hb, hbx⟩ := List.mem_map.mp hm
  split_ifs at hbx with he
  · exact hx hbx.symm
  · exact h (hbx ▸ hb)

theorem target_text (filename body : List Byte) : filename ++ 95 :: (body ++ [10]) ++ [46, 108, 111, 103] =
    (filename ++ 95 :: body) ++ 10 :: [46, 108, 111, 103] := by simp

theorem target_length (filename body : List Byte) :
    (filename ++ 95 :: (body ++ [10]) ++ [46, 108, 111, 103]).length - 5 = (filename ++ 95 :: body).length := by
  rw [target_text, List.length_append]
  rfl

theorem archiveName_stamp (filename body : List Byte) : archiveName filename (body ++ [10]) =
    charChange ((filename ++ 95 :: body) ++ 95 :: [46, 108, 111, 103]) 32 95 := by
  rw [archiveName, target_length, target_text, List.set_append_right (h := Nat.le_refl _), Nat.sub_self]
  rfl

theorem rotationTarget_eq {filename body : List Byte} (hf : NulFree filename) (hb : NulFree body) :
    rotationTarget filename (body ++ [10]) =
      if filename.length + (body ++ [10]).length + 5 < 1024 then some (archiveName filename (body ++ [10]))
      else none := by
  have hnul : NulFree (filename ++ 95 :: (body ++ [10]) ++ [46, 108, 111, 103]) := by
    have hbar : NulFree [95] := by decide
    have hline : NulFree [10] := by decide
    exact (hf.append (hbar.append (hb.append hline))).append (by decide)
  have hwrites := strcpy_zeros 1024 hnul
  have hlen : (filename ++ 95 :: (body ++ [10]) ++ [46, 108, 111, 103]).length =
      filename.length + (body ++ [10]).length + 5 := by
    simp
    omega
  by_cases hfit : filename.length + (body ++ [10]).length + 5 < 1024
  · obtain ⟨temchar, hput, htext⟩ := hwrites.1 (by omega)
    have hread := htext.read
    rw [target_text] at htext
    obtain ⟨out, hset, hout⟩ := htext.set (b := 95) (by decide)
    rw [if_pos hfit, rotationTarget, hput, Option.bind_some, hread, Option.bind_some]
    simp only [target_length, hset, Option.bind_some, hout.read, Option.map_some, archiveName_stamp]
  · rw [if_neg hfit, rotationTarget, hwrites.2 (by omega), Option.bind_none]

theorem archiveName_beside_iff (filename : List Byte) {body : List Byte} (hb : Plain body) :
    Beside filename (archiveName filename (body ++ [10])) ↔ 32 ∉ filename := by
  have hchange : archiveName filename (body ++ [10]) =
      charChange filename 32 95 ++ 95 :: (charChange body 32 95 ++ [95]) ++ [46, 108, 111, 103] := by
    rw [archiveName_stamp]
    simp [charChange]
  rw [hchange]
  constructor
  · intro h
    obtain ⟨suffix, htarget, -⟩ := h
    rw [List.append_assoc, List.append_assoc] at htarget
    have hname := List.append_inj_left htarget (List.length_map _)
    exact hname ▸ charChange_no_space filename
  · intro h
    rw [charChange_free h]
    refine ⟨_, rfl, ?_, ?_, ?_⟩
    · rw [List.mem_append, List.mem_singleton, not_or]
      exact ⟨charChange_no_space body, by decide⟩
    · rw [List.mem_append, List.mem_singleton, not_or]
      exact ⟨charChange_not_mem (by decide) fun hm => (hb 10 hm).2.1 rfl, by decide⟩
    · rw [List.mem_append, List.mem_singleton, not_or]
      exact ⟨charChange_not_mem (by decide) fun hm => (hb 47 hm).2.2 rfl, by decide⟩

theorem Beside.dirPart_eq {filename target : List Byte} (h : Beside filename target) :
    dirPart target = dirPart filename := by
  obtain ⟨suffix, htarget, -, -, hslash⟩ := h
  rw [htarget, dirPart, dirPart, List.append_assoc, List.reverse_append, List.dropWhile_append_of_pos]
  intro b hb
  rw [List.mem_reverse] at hb
  simp only [List.cons_append, List.mem_cons, List.mem_append, List.not_mem_nil, or_false] at hb
  simp only [decide_eq_true_eq]
  intro he
  subst he
  simp [hslash] at hb

/-- The archive is put beside its log exactly when the log's name has no space and the target
fits its array. -/
theorem rotationTarget_iff (filename : List Byte) (hf : NulFree filename) (tm : Tm) :
    (∃ target, rotationTarget filename (asctime tm) = some target ∧ Beside filename target ∧
      dirPart target = dirPart filename) ↔
      32 ∉ filename ∧ filename.length + (asctime tm).length ≤ 1018 := by
  have hbody := plain_asctimeText tm
  have htarget := rotationTarget_eq hf hbody.nulFree
  have hbeside := archiveName_beside_iff filename hbody
  rw [← asctime] at htarget hbeside
  rw [htarget]
  constructor
  · intro h
    obtain ⟨target, hsome, hb, -⟩ := h
    split_ifs at hsome with hfit
    · rw [← Option.some.inj hsome] at hb
      exact ⟨hbeside.mp hb, by omega⟩
  · intro h
    have hb := hbeside.mpr h.1
    exact ⟨_, if_pos (by omega), hb, hb.dirPart_eq⟩

def aTime : Tm := ⟨8, 49, 21, 30, 5, 93, 3⟩

theorem rotationTarget_iff_main : (∃ target,
    rotationTarget (ascii "./logs/main.log") (asctime aTime) = some target ∧
      Beside (ascii "./logs/main.log") target ∧ dirPart target = dirPart (ascii "./logs/main.log")) ↔
      32 ∉ ascii "./logs/main.log" ∧ (ascii "./logs/main.log").length + (asctime aTime).length ≤ 1018 :=
  rotationTarget_iff (ascii "./logs/main.log") (by decide) aTime

/-- With a space in its directory the log would be moved to a directory that is not its own. -/
theorem rotationTarget_leaves_dir :
    rotationTarget (ascii "my logs/a.log") (asctime aTime) =
        some (ascii "my_logs/a.log_Wed_Jun_30_21:49:08_1993_.log") ∧
      ¬ ∃ target, rotationTarget (ascii "my logs/a.log") (asctime aTime) = some target ∧
        Beside (ascii "my logs/a.log") target ∧ dirPart target = dirPart (ascii "my logs/a.log") := by
  have htarget : rotationTarget (ascii "my logs/a.log") (asctime aTime) =
      some (ascii "my_logs/a.log_Wed_Jun_30_21:49:08_1993_.log") := by
    have hname : NulFree (ascii "my logs/a.log") := by decide
    exact rotationTarget_eq hname (plain_asctimeText aTime).nulFree
  refine ⟨htarget, fun h => ?_⟩
  obtain ⟨target, hsome, -, hdir⟩ := h
  rw [htarget, Option.some.injEq] at hsome
  rw [← hsome] at hdir
  exact absurd hdir (by decide)

/-- The files of `fs'` that were not there in `fs` are the log and archives beside it. -/
def Near (path : List Byte) (fs fs' : Fs) : Prop :=
  ∀ p, fs' p ≠ none → fs p ≠ none ∨ p = path ∨ Beside path p

section Runs
variable {path : List Byte} {fs fs' fs'' : Fs}

theorem Near.refl (path : List Byte) (fs : Fs) : Near path fs fs := fun _ h => Or.inl h

theorem Near.trans (h : Near path fs fs') (k : Near path fs' fs'') : Near path fs fs'' := by
  intro p hp
  cases k p hp with
  | inl hold => exact h p hold
  | inr hnew => exact Or.inr hnew

theorem near_touch (path : List Byte) (fs : Fs) : Near path fs (fs.touch path) := by
  intro p hp
  by_cases he : p = path
  · exact Or.inr (Or.inl he)
  · rw [Files.touch, if_neg he] at hp
    exact Or.inl hp

theorem near_append (path : List Byte) (fs : Fs) (c : Chunk) : Near path fs (fs.append path c) := by
  intro p hp
  by_cases he : p = path
  · exact Or.inr (Or.inl he)
  · rw [Files.append, if_neg he] at hp
    exact Or.inl hp

theorem near_rename {target : List Byte} (h : Beside path target) : Near path fs (fs.rename path target) := by
  intro p hp
  by_cases ht : p = target
  · exact Or.inr (Or.inr (ht ▸ h))
  · rw [Files.rename, if_neg ht] at hp
    split_ifs at hp with he
    · exact Or.inr (Or.inl he)
    · exact Or.inl hp

/-- One call makes no file but the log and an archive beside it. -/
theorem logInf_near {clock : Int → Tm} (hp : 32 ∉ path) {c : LogCall} {s s' : LogState} {r : Int}
    (hname : ∀ ld, s.ld = some ld → ld.filename = path)
    (h : logInf (fun t => asctime (clock t)) c s = some (r, s')) :
    (∀ ld, s'.ld = some ld → ld.filename = path) ∧ Near path s.fs s'.fs := by
  have hbeside : Beside path (archiveName path (asctime (clock c.time))) :=
    (archiveName_beside_iff path (plain_asctimeText (clock c.time))).mpr hp
  cases hld : s.ld with
  | none => simp [logInf, hld] at h
  | some ld =>
    have hpath := hname ld hld
    subst hpath
    cases hfg : ld.fg with
    | false =>
      simp only [logInf, hld, hfg, Bool.not_false, if_true, Option.some.injEq, Prod.mk.injEq] at h
      rw [← h.2]
      exact ⟨hname, Near.refl _ _⟩
    | true =>
      cases hb : compose (asctime (clock c.time)) c with
      | none => simp [logInf, hld, hfg, hb] at h
      | some buff =>
        have hkeep : ∀ x, some ld = some x → x.filename = ld.filename := fun x hx =>
          congrArg Logdata.filename (Option.some.inj hx).symm
        simp only [logInf, hld, hfg, hb, Bool.not_true, Bool.false_eq_true, if_false] at h
        by_cases hrot : isneedcp (if c.stat = true then s.fs.size ld.filename else none) ld.maxsize = 1
        · rw [if_pos hrot] at h
          by_cases hlong : 1024 ≤ ld.filename.length + (asctime (clock c.time)).length + 5
          · rw [if_pos hlong] at h
            cases h
          · have hmoved : Near ld.filename s.fs (if c.rename then
                s.fs.rename ld.filename (archiveName ld.filename (asctime (clock c.time))) else s.fs) := by
              split_ifs
              · exact near_rename hbeside
              · exact Near.refl _ _
            rw [if_neg hlong] at h
            cases hopen : c.fopen with
            | false =>
              rw [hopen, if_neg Bool.false_ne_true, Option.some.injEq, Prod.mk.injEq] at h
              rw [← h.2]
              exact ⟨fun _ hx => absurd hx (by simp), hmoved⟩
            | true =>
              rw [hopen, if_pos rfl, Option.some.injEq, Prod.mk.injEq] at h
              rw [← h.2]
              exact ⟨hkeep, hmoved.trans ((near_touch _ _).trans (near_append _ _ _))⟩
        · rw [if_neg hrot, Option.some.injEq, Prod.mk.injEq] at h
          rw [← h.2]
          exact ⟨hkeep, near_append _ _ _⟩

/-- A whole run makes no file but the log and archives beside it. -/
theorem logRun_near {clock : Int → Tm} (hp : 32 ∉ path) (calls : List LogCall) (s s' : LogState)
    (hname : ∀ ld, s.ld = some ld → ld.filename = path)
    (h : logRun (fun t => asctime (clock t)) calls s = some s') : Near path s.fs s'.fs := by
  induction calls generalizing s with
  | nil =>
    rw [logRun, Option.some.injEq] at h
    rw [h]
    exact Near.refl _ _
  | cons c calls ih =>
    rw [logRun] at h
    obtain ⟨q, hq, hrest⟩ := Option.bind_eq_some_iff.mp h
    obtain ⟨hkeep, hnear⟩ := logInf_near hp hname hq
    exact hnear.trans (ih q.2 hkeep hrest)

end Runs

end TimeTask
