import TimeTask.Log

/-! Where the written lines are over a whole run of logInf calls. -/
namespace TimeTask
open Lib

/-- The line that call number `i` composes. -/
def lineOf (asctime : Int → List Byte) (calls : List LogCall) (i : Nat) : List Byte :=
  ((calls[i]?).bind fun c => compose (asctime c.time) c).getD []

/-- The archive name that call number `i` would use. -/
def archiveOf (asctime : Int → List Byte) (path : List Byte) (calls : List LogCall) (i : Nat) : List Byte :=
  archiveName path (((calls[i]?).map fun c => asctime c.time).getD [])

/-- The length of the log in front of call number `k`, from the lengths of the lines alone. -/
def lengthBefore (asctime : Int → List Byte) (maxsize : Int) (size : Nat) (calls : List LogCall) :
    Nat → Nat
  | 0 => size
  | k + 1 =>
    let n := lengthBefore asctime maxsize size calls k
    (if isneedcp (some n) maxsize = 1 then 0 else n) + (lineOf asctime calls k).length

/-- Call number `i` rotates the log. -/
def Rotates (asctime : Int → List Byte) (maxsize : Int) (size : Nat) (calls : List LogCall) (i : Nat) :
    Prop := isneedcp (some (lengthBefore asctime maxsize size calls i)) maxsize = 1

theorem lengthBefore_rotate {asctime : Int → List Byte} {maxsize : Int} {size : Nat}
    {calls : List LogCall} {k : Nat} (h : Rotates asctime maxsize size calls k) :
    lengthBefore asctime maxsize size calls (k + 1) = (lineOf asctime calls k).length := by
  unfold Rotates at h
  simp [lengthBefore, h]

theorem lengthBefore_append {asctime : Int → List Byte} {maxsize : Int} {size : Nat}
    {calls : List LogCall} {k : Nat} (h : ¬ Rotates asctime maxsize size calls k) :
    lengthBefore asctime maxsize size calls (k + 1) =
      lengthBefore asctime maxsize size calls k + (lineOf asctime calls k).length := by
  unfold Rotates at h
  simp [lengthBefore, h]

/-- The line of call number `i` is in the file `p`, once, and in no other file. -/
def OnceAt (fs : Fs) (i : Nat) (p : List Byte) : Prop :=
  ∀ q, fs.count (fun c => c.1 == some i) q = if q = p then 1 else 0

/-- After each call every line written so far is there exactly once, in the log or in an
archive. -/
def KeepsLines (asctime : Int → List Byte) (path : List Byte) (calls : List LogCall) (s : LogState)
    (n : Nat) : Prop :=
  ∀ k ≤ n, ∃ s', logRun asctime (calls.take k) s = some s' ∧ ∀ i < k, ∃ p,
    (p = path ∨ ∃ j < k, p = archiveOf asctime path calls j) ∧ OnceAt s'.fs i p

/-- The archive names of the rotations among the first `n` calls fit their buffer, and no
two of them are the same, the first call apart: it rotates a log without lines of the run. -/
structure ArchivesApart (rotates : Nat → Prop) (fits : Nat → Prop) (archive : Nat → List Byte)
    (n : Nat) : Prop where
  fit : ∀ i < n, rotates i → fits i
  apart : ∀ i j, 0 < i → i < j → j < n → rotates i → rotates j → archive i ≠ archive j

/-- All calls get through: stat, rename and fopen succeed and the lines fit their buffers. -/
def Healthy (asctime : Int → List Byte) (calls : List LogCall) : Prop :=
  ∀ c ∈ calls, c.stat = true ∧ c.rename = true ∧ c.fopen = true ∧ (compose (asctime c.time) c).isSome

section Runs
variable {asctime : Int → List Byte} {path : List Byte} {maxsize : Int} {size : Nat}
  {calls : List LogCall}

/-- The state after `k` calls: the log is open and has the computed length, and `loc` is the
place of each line written. -/
structure Placed (asctime : Int → List Byte) (path : List Byte) (maxsize : Int) (size : Nat)
    (calls : List LogCall) (k : Nat) (loc : Nat → List Byte) (s : LogState) : Prop where
  ld : s.ld = some ⟨true, path, maxsize⟩
  count : s.calls = k
  length : Fs.size s.fs path = some (lengthBefore asctime maxsize size calls k)
  place : ∀ i < k, OnceAt s.fs i (loc i)
  later : ∀ i, k ≤ i → ∀ q, s.fs.count (fun c => c.1 == some i) q = 0
  archive : ∀ i < k, loc i = path ∨ ∃ j, 0 < j ∧ j < k ∧ Rotates asctime maxsize size calls j ∧
    loc i = archiveOf asctime path calls j
  used : ∀ j, 0 < j → j < k → Rotates asctime maxsize size calls j →
    ∃ i < k, loc i = archiveOf asctime path calls j
  last : ∀ i, i + 1 = k → loc i = path

theorem logInf_append {s : LogState} {c : LogCall} {buff : List Byte} {n : Nat}
    (hld : s.ld = some ⟨true, path, maxsize⟩) (hb : compose (asctime c.time) c = some buff)
    (hst : c.stat = true) (hn : Fs.size s.fs path = some n) (hr : isneedcp (some n) maxsize ≠ 1) :
    logInf asctime c s =
      some (0, { s with fs := s.fs.append path (some s.calls, buff), calls := s.calls + 1 }) := by
  simp [logInf, hld, hb, hst, hn, hr]

theorem logInf_rotate {s : LogState} {c : LogCall} {buff : List Byte} {n : Nat}
    (hld : s.ld = some ⟨true, path, maxsize⟩) (hb : compose (asctime c.time) c = some buff)
    (hst : c.stat = true) (hre : c.rename = true) (hop : c.fopen = true)
    (hn : Fs.size s.fs path = some n) (hr : isneedcp (some n) maxsize = 1) :
    logInf asctime c s =
      if 1024 ≤ path.length + (asctime c.time).length + 5 then none
      else some (0, { s with
        fs := (((s.fs.rename path (archiveName path (asctime c.time))).touch path).append path
          (some s.calls, buff))
        calls := s.calls + 1 }) := by
  simp [logInf, hld, hb, hst, hre, hop, hn, hr]

theorem logRun_take_succ (asctime : Int → List Byte) {k : Nat} {c : LogCall} (hc : calls[k]? = some c) (s : LogState) :
    logRun asctime (calls.take (k + 1)) s =
      (logRun asctime (calls.take k) s).bind fun s' => (logInf asctime c s').map Prod.snd := by
  rw [List.take_add_one, hc, logRun_append]
  congr 1
  funext s'
  cases h : logInf asctime c s' <;> simp [logRun, h]

theorem archiveOf_ne (i : Nat) : path ≠ archiveOf asctime path calls i := archiveName_ne _ _

theorem Placed.append {k : Nat} {loc : Nat → List Byte} {s : LogState}
    (h : Placed asctime path maxsize size calls k loc s) (hr : ¬ Rotates asctime maxsize size calls k) :
    Placed asctime path maxsize size calls (k + 1) (fun i => if i = k then path else loc i)
      { s with
        fs := s.fs.append path (some k, lineOf asctime calls k)
        calls := s.calls + 1 } := by
  refine ⟨h.ld, by simp [h.count], ?_, fun i hi q => ?_, fun i hi q => ?_, fun i hi => ?_,
    fun j h0 hj hrj => ?_, fun i hi => ?_⟩
  · simp only [Fs.size_append, h.length, Option.getD_some, lengthBefore_append hr]
  · simp only [Files.count_append]
    by_cases hik : i = k
    · subst hik
      simp [h.later i (Nat.le_refl i) q]
    · have hc := h.place i (by omega) q
      have hki : ¬ k = i := fun he => hik he.symm
      simp [hc, hik, hki]
  · have hki : ¬ k = i := by omega
    simp only [Files.count_append, h.later i (by omega) q]
    simp [hki]
  · by_cases hik : i = k
    · simp [hik]
    · simp only [hik, if_false]
      cases h.archive i (by omega) with
      | inl hp => exact Or.inl hp
      | inr ha =>
        obtain ⟨j, h0, hj, hrj, he⟩ := ha
        exact Or.inr ⟨j, h0, by omega, hrj, he⟩
  · have hjk : j ≠ k := by
      intro he
      subst he
      exact hr hrj
    obtain ⟨i, hi, he⟩ := h.used j h0 (by omega) hrj
    have hik : i ≠ k := by omega
    exact ⟨i, by omega, by simp [hik, he]⟩
  · have hik : i = k := by omega
    simp [hik]

theorem count_rotated {fs : Fs} {new : List Byte} (hne : path ≠ new) (hfs : fs path ≠ none) (c : Chunk)
    (keep : Chunk → Bool) (q : List Byte) :
    (((fs.rename path new).touch path).append path c).count keep q =
      (if q = new then fs.count keep path else if q = path then 0 else fs.count keep q) +
        if q = path ∧ keep c = true then 1 else 0 := by
  rw [Files.count_append, Files.count_touch, Files.count_rename fs keep hne hfs]

theorem Placed.exists {k : Nat} {loc : Nat → List Byte} {s : LogState}
    (h : Placed asctime path maxsize size calls k loc s) : s.fs path ≠ none := by
  intro hn
  have hl := h.length
  simp [Fs.size, hn] at hl

/-- A line put into a fresh log, when no line lies in the file that the archive replaces. -/
theorem Placed.rotate {k : Nat} {loc : Nat → List Byte} {s : LogState}
    (h : Placed asctime path maxsize size calls k loc s) (hr : Rotates asctime maxsize size calls k)
    (hfree : ∀ i < k, loc i ≠ archiveOf asctime path calls k) :
    Placed asctime path maxsize size calls (k + 1)
      (fun i => if i = k then path
        else if loc i = path then archiveOf asctime path calls k else loc i)
      { s with
        fs := (((s.fs.rename path (archiveOf asctime path calls k)).touch path).append path
          (some k, lineOf asctime calls k))
        calls := s.calls + 1 } := by
  have hne : path ≠ archiveOf asctime path calls k := archiveOf_ne k
  have hcount := fun c keep q => count_rotated hne h.exists c keep q
  refine ⟨h.ld, by simp [h.count], ?_, fun i hi q => ?_, fun i hi q => ?_, fun i hi => ?_,
    fun j h0 hj hrj => ?_, fun i hi => ?_⟩
  · have hgone : Fs.size (s.fs.rename path (archiveOf asctime path calls k)) path = none := by
      rw [Fs.size, Files.rename_source s.fs hne]
      rfl
    simp only [Fs.size_append, Fs.size_touch, hgone, Option.getD_some, Option.getD_none,
      lengthBefore_rotate hr, Nat.zero_add]
  · rw [hcount]
    by_cases hik : i = k
    · subst hik
      have hz := h.later i (Nat.le_refl i)
      simp only [hz]
      by_cases hq : q = path
      · simp [hq]
      · simp [hq]
    · have hki : ¬ k = i := fun he => hik he.symm
      have hki' : ((some k : Option Nat) == some i) = false := by simp [hki]
      have hc := h.place i (by omega)
      have hcq := hc q
      have hcp := hc path
      have hf := hfree i (by omega)
      simp only [hik, if_false, hcp, hcq, hki', Bool.false_eq_true, and_false, Nat.add_zero]
      by_cases hloc : loc i = path
      · simp only [hloc, if_true]
        by_cases hq : q = path
        · subst hq
          simp [hne]
        · simp [hq]
      · have hpl : ¬ path = loc i := fun he => hloc he.symm
        simp only [hloc, hpl, if_false]
        by_cases hq : q = archiveOf asctime path calls k
        · have hql : ¬ archiveOf asctime path calls k = loc i := fun he => hf he.symm
          simp [hq, hql]
        · by_cases hqp : q = path
          · simp [hqp, hpl]
          · simp [hq, hqp]
  · have hki : ((some k : Option Nat) == some i) = false := by
      have hlt : ¬ k = i := by omega
      simp [hlt]
    have hz := h.later i (by omega)
    rw [hcount]
    simp [hz, hki]
  · by_cases hik : i = k
    · simp [hik]
    · simp only [hik, if_false]
      by_cases hloc : loc i = path
      · simp only [hloc, if_true]
        exact Or.inr ⟨k, by omega, by omega, hr, rfl⟩
      · simp only [hloc, if_false]
        obtain ⟨j, h0, hj, hrj, he⟩ := (h.archive i (by omega)).resolve_left hloc
        exact Or.inr ⟨j, h0, by omega, hrj, he⟩
  · by_cases hjk : j = k
    · subst hjk
      have hl := h.last (j - 1) (by omega)
      have hne' : j - 1 ≠ j := by omega
      exact ⟨j - 1, by omega, by simp [hne', hl]⟩
    · obtain ⟨i, hi, he⟩ := h.used j h0 (by omega) hrj
      have hik : i ≠ k := by omega
      have hp : archiveOf asctime path calls j ≠ path := Ne.symm (archiveOf_ne j)
      exact ⟨i, by omega, by simp [hik, he, hp]⟩
  · have hik : i = k := by omega
    simp [hik]

/-- A line in the file that the archive replaces is gone. -/
theorem Placed.lost {k i : Nat} {loc : Nat → List Byte} {s : LogState}
    (h : Placed asctime path maxsize size calls k loc s) (hi : i < k)
    (hloc : loc i = archiveOf asctime path calls k) (c : List Byte) (p : List Byte) :
    ¬ OnceAt (((s.fs.rename path (archiveOf asctime path calls k)).touch path).append path
      (some k, c)) i p := by
  intro hp
  have hne : path ≠ archiveOf asctime path calls k := archiveOf_ne k
  have hki : ((some k : Option Nat) == some i) = false := by
    have hlt : ¬ k = i := by omega
    simp [hlt]
  have hat := h.place i hi
  have hone := hp p
  rw [count_rotated hne h.exists, if_pos rfl, hat p, hat path, hloc] at hone
  simp only [hki, Bool.false_eq_true, and_false, if_false, hne, Nat.add_zero] at hone
  split_ifs at hone

theorem KeepsLines.mono {s : LogState} {k n : Nat} (h : KeepsLines asctime path calls s n) (hk : k ≤ n) :
    KeepsLines asctime path calls s k := fun j hj => h j (by omega)

theorem ArchivesApart.mono {rotates fits : Nat → Prop} {archive : Nat → List Byte} {k n : Nat}
    (h : ArchivesApart rotates fits archive n) (hk : k ≤ n) : ArchivesApart rotates fits archive k :=
  ⟨fun i hi => h.fit i (by omega), fun i j h0 hij hj => h.apart i j h0 hij (by omega)⟩

theorem Placed.once {k : Nat} {loc : Nat → List Byte} {s : LogState}
    (h : Placed asctime path maxsize size calls k loc s) : ∀ i < k, ∃ p,
      (p = path ∨ ∃ j < k, p = archiveOf asctime path calls j) ∧ OnceAt s.fs i p := by
  intro i hi
  refine ⟨loc i, ?_, h.place i hi⟩
  cases h.archive i hi with
  | inl hp => exact Or.inl hp
  | inr ha =>
    obtain ⟨j, _, hj, _, he⟩ := ha
    exact Or.inr ⟨j, hj, he⟩

/-- The archive name of call `i` fits its buffer. -/
def ArchiveFits (asctime : Int → List Byte) (path : List Byte) (calls : List LogCall) (i : Nat) : Prop :=
  (archiveOf asctime path calls i).length < 1024

/-- Up to any call, either the lines are kept, the archives are apart and every line has its
place, or the lines are not kept and the archives are not apart. -/
theorem keeps_or_not {s : LogState} {loc : Nat → List Byte}
    (h0 : Placed asctime path maxsize size calls 0 loc s) (hok : Healthy asctime calls) (k : Nat)
    (hk : k ≤ calls.length) :
    (KeepsLines asctime path calls s k ∧
      ArchivesApart (Rotates asctime maxsize size calls) (ArchiveFits asctime path calls)
        (archiveOf asctime path calls) k ∧
      ∃ s' loc', logRun asctime (calls.take k) s = some s' ∧
        Placed asctime path maxsize size calls k loc' s') ∨
    (¬ KeepsLines asctime path calls s k ∧
      ¬ ArchivesApart (Rotates asctime maxsize size calls) (ArchiveFits asctime path calls)
        (archiveOf asctime path calls) k) := by
  induction k with
  | zero =>
    refine Or.inl ⟨fun j hj => ?_, ⟨fun i hi => by omega, fun i j _ _ hj => by omega⟩, s, loc, rfl, h0⟩
    have hj0 : j = 0 := by omega
    subst hj0
    exact ⟨s, rfl, fun i hi => by omega⟩
  | succ k ih =>
    cases ih (by omega) with
    | inr hbad => exact Or.inr ⟨fun h => hbad.1 (h.mono (by omega)), fun h => hbad.2 (h.mono (by omega))⟩
    | inl hgood =>
      obtain ⟨hkeep, hapart, s', loc', hrun, hp⟩ := hgood
      have hlt : k < calls.length := by omega
      have hc : calls[k]? = some calls[k] := List.getElem?_eq_getElem hlt
      obtain ⟨hst, hre, hop, hfit⟩ := hok calls[k] (List.getElem_mem hlt)
      obtain ⟨buff, hbuff⟩ := Option.isSome_iff_exists.mp hfit
      have hline : lineOf asctime calls k = buff := by simp [lineOf, hc, hbuff]
      have harch : archiveOf asctime path calls k = archiveName path (asctime calls[k].time) := by
        simp [archiveOf, hc]
      have hnext := logRun_take_succ asctime hc s
      rw [hrun, Option.bind_some] at hnext
      have hextend : ∀ s'' loc'', logRun asctime (calls.take (k + 1)) s = some s'' →
          Placed asctime path maxsize size calls (k + 1) loc'' s'' →
          KeepsLines asctime path calls s (k + 1) := by
        intro s'' loc'' hrun'' hp'' j hj
        by_cases hjk : j ≤ k
        · exact hkeep j hjk
        · have hje : j = k + 1 := by omega
          subst hje
          exact ⟨s'', hrun'', hp''.once⟩
      by_cases hr : Rotates asctime maxsize size calls k
      · have hcall := logInf_rotate hp.ld hbuff hst hre hop hp.length hr
        have hlen : (archiveOf asctime path calls k).length =
            path.length + (asctime calls[k].time).length + 5 := by
          rw [harch, archiveName_length]
        by_cases hbig : 1024 ≤ path.length + (asctime calls[k].time).length + 5
        · rw [hcall, if_pos hbig] at hnext
          refine Or.inr ⟨fun h => ?_, fun h => ?_⟩
          · obtain ⟨s'', hs'', _⟩ := h (k + 1) (by omega)
            rw [hnext] at hs''
            cases hs''
          · have hf := h.fit k (by omega) hr
            rw [ArchiveFits, hlen] at hf
            omega
        · rw [hcall, if_neg hbig] at hnext
          rw [← harch, ← hline, hp.count] at hnext
          by_cases hfree : ∀ i < k, loc' i ≠ archiveOf asctime path calls k
          · have hp' := hp.rotate hr hfree
            rw [hp.count] at hp'
            refine Or.inl ⟨hextend _ _ hnext hp', ⟨fun i hi hri => ?_, fun i j hi hij hj hri hrj => ?_⟩,
              _, _, hnext, hp'⟩
            · by_cases hik : i < k
              · exact hapart.fit i hik hri
              · have hie : i = k := by omega
                subst hie
                rw [ArchiveFits, hlen]
                omega
            · by_cases hjk : j < k
              · exact hapart.apart i j hi hij hjk hri hrj
              · have hje : j = k := by omega
                subst hje
                obtain ⟨x, hx, he⟩ := hp.used i hi hij hri
                rw [← he]
                exact hfree x hx
          · push Not at hfree
            obtain ⟨i, hi, he⟩ := hfree
            refine Or.inr ⟨fun h => ?_, fun h => ?_⟩
            · obtain ⟨s'', hs'', honce⟩ := h (k + 1) (by omega)
              rw [hnext] at hs''
              cases hs''
              obtain ⟨p, _, hpo⟩ := honce i (by omega)
              exact hp.lost hi he _ p hpo
            · have hne : loc' i ≠ path := by
                rw [he]
                exact Ne.symm (archiveOf_ne k)
              obtain ⟨j, hj0, hjk, hrj, hej⟩ := (hp.archive i hi).resolve_left hne
              exact h.apart j k hj0 hjk (by omega) hrj hr (hej.symm.trans he)
      · have hcall := logInf_append hp.ld hbuff hst hp.length hr
        rw [hcall] at hnext
        rw [← hline, hp.count] at hnext
        have hp' := hp.append hr
        rw [hp.count] at hp'
        refine Or.inl ⟨hextend _ _ hnext hp', ⟨fun i hi hri => ?_, fun i j hi hij hj hri hrj => ?_⟩,
          _, _, hnext, hp'⟩
        · have hik : i ≠ k := by
            intro he
            subst he
            exact hr hri
          exact hapart.fit i (by omega) hri
        · have hjk : j ≠ k := by
            intro he
            subst he
            exact hr hrj
          exact hapart.apart i j hi hij (by omega) hri hrj

end Runs

/-- No piece of a file comes from the run to be observed. -/
def Untagged (fs : Fs) : Prop := ∀ p f, fs p = some f → ∀ c ∈ f, c.1 = none

theorem logInit_placed {asctime : Int → List Byte} {path : List Byte} {size : Int} {fs : Fs}
    {calls : List LogCall} {s : LogState} (hfs : Untagged fs)
    (hs : logInit (some path) size true (true, true) fs = some s) :
    Placed asctime path (logMaxsize size) ((Fs.size fs path).getD 0) calls 0 (fun _ => path) s := by
  simp only [logInit, Bool.and_self, if_true, Option.some.injEq] at hs
  subst hs
  refine ⟨rfl, rfl, Fs.size_touch fs path, by omega, fun i _ q => ?_, by omega, by omega, by omega⟩
  rw [Files.count_touch, Files.count, List.countP_eq_zero]
  intro c hc
  cases hq : fs q with
  | none => simp [hq] at hc
  | some f =>
    rw [hq] at hc
    simp [hfs q f hq c hc]

/-- The pieces of the files that are tagged with a call hold its line. -/
structure Tagged (asctime : Int → List Byte) (calls : List LogCall) (k : Nat) (s : LogState) : Prop where
  count : s.ld.isSome → s.calls = k
  fg : ∀ ld, s.ld = some ld → ld.fg = true
  bytes : ∀ i q, s.fs.count (fun c => c.1 == some i && c.2 != lineOf asctime calls i) q = 0

theorem Tagged.step {asctime : Int → List Byte} {calls : List LogCall} {k : Nat} {c : LogCall} {s s' : LogState} {r : Int}
    (h : Tagged asctime calls k s) (hc : calls[k]? = some c) (hs : logInf asctime c s = some (r, s')) :
    Tagged asctime calls (k + 1) s' := by
  cases hld : s.ld with
  | none => simp [logInf, hld] at hs
  | some ld =>
    have hcount := h.count (by rw [hld]; rfl)
    have hfg := h.fg ld hld
    cases hb : compose (asctime c.time) c with
    | none => simp [logInf, hld, hb, hfg] at hs
    | some buff =>
      have hline : lineOf asctime calls k = buff := by simp [lineOf, hc, hb]
      -- the new piece holds the line of its call
      have hwrite : ∀ fs : Fs, (∀ i q, fs.count (fun c => c.1 == some i && c.2 != lineOf asctime calls i) q = 0) →
          ∀ i q, (fs.append ld.filename (some s.calls, buff)).count
            (fun c => c.1 == some i && c.2 != lineOf asctime calls i) q = 0 := by
        intro fs hfs i q
        rw [Files.count_append, hfs, hcount]
        by_cases hik : k = i
        · simp [← hik, hline]
        · simp [hik]
      have hmove : ∀ i q, (if c.rename then s.fs.rename ld.filename (archiveName ld.filename (asctime c.time))
          else s.fs).count
          (fun c => c.1 == some i && c.2 != lineOf asctime calls i) q = 0 := by
        intro i q
        split_ifs
        · exact Files.count_rename_zero (h.bytes i) (archiveName_ne _ _) q
        · exact h.bytes i q
      obtain ⟨gs, hgs⟩ : ∃ gs, (if c.rename then s.fs.rename ld.filename (archiveName ld.filename (asctime c.time))
        else s.fs) = gs := ⟨_, rfl⟩
      rw [hgs] at hmove
      have hopen : ∀ l, some ld = some l → l.fg = true := by
        intro l hl
        cases hl
        exact hfg
      have htouch : ∀ i q, (gs.touch ld.filename).count (fun c => c.1 == some i && c.2 != lineOf asctime calls i) q = 0 := by
        intro i q
        rw [Files.count_touch]
        exact hmove i q
      obtain ⟨st, hst⟩ : ∃ st, (if c.stat then s.fs.size ld.filename else none) = st := ⟨_, rfl⟩
      simp only [logInf, hld, hb, hfg, hgs, hst, Bool.not_true, Bool.false_eq_true, if_false] at hs
      split_ifs at hs
      · cases hs
        exact ⟨fun _ => congrArg (· + 1) hcount, hopen, hwrite _ htouch⟩
      · cases hs
        exact ⟨fun hn => (by cases hn), fun l hl => (by cases hl), hmove⟩
      · cases hs
        exact ⟨fun _ => congrArg (· + 1) hcount, hopen, hwrite _ h.bytes⟩

/-- Whatever stat, rename and fopen answer, a piece that was written by a call holds the line of that call. -/
theorem logRun_bytes {asctime : Int → List Byte} {path : List Byte} {size : Int} {fopen : Bool} {mem : Bool × Bool} {fs : Fs}
    {calls : List LogCall} {s s' : LogState} (hfs : Untagged fs) (hs : logInit (some path) size fopen mem fs = some s)
    {k : Nat} (hk : k ≤ calls.length) (hrun : logRun asctime (calls.take k) s = some s') (i : Nat) (q : List Byte) :
    s'.fs.count (fun c => c.1 == some i && c.2 != lineOf asctime calls i) q = 0 := by
  have h0 : Tagged asctime calls 0 s := by
    simp only [logInit] at hs
    split_ifs at hs
    cases hs
    refine ⟨fun _ => rfl, fun ld hld => (by cases hld; rfl), fun j p => ?_⟩
    rw [Files.count_touch, Files.count, List.countP_eq_zero]
    intro c hc
    cases hp : fs p with
    | none => simp [hp] at hc
    | some f =>
      rw [hp] at hc
      simp [hfs p f hp c hc]
  have hall : Tagged asctime calls k s' := by
    induction k generalizing s' with
    | zero =>
      cases hrun
      exact h0
    | succ k ih =>
      have hc : calls[k]? = some calls[k] := List.getElem?_eq_getElem (by omega)
      rw [logRun_take_succ asctime hc s, Option.bind_eq_some_iff] at hrun
      obtain ⟨t, ht, hrun⟩ := hrun
      obtain ⟨⟨r, u⟩, hu, hus⟩ := Option.map_eq_some_iff.mp hrun
      cases hus
      exact (ih (by omega) ht).step hc hu
  exact hall.bytes i q

/-- So a line that is once in a file is there with its bytes. -/
theorem OnceAt.bytes {asctime : Int → List Byte} {calls : List LogCall} {fs : Fs} {i : Nat} {p : List Byte}
    (h : OnceAt fs i p) (hb : ∀ q, fs.count (fun c => c.1 == some i && c.2 != lineOf asctime calls i) q = 0)
    (q : List Byte) : fs.count (fun c => c == (some i, lineOf asctime calls i)) q = if q = p then 1 else 0 := by
  rw [← h q]
  refine List.countP_congr fun c hc => ?_
  have hne := List.countP_eq_zero.mp (hb q) c hc
  obtain ⟨tag, b⟩ := c
  simp only [Bool.and_eq_true, bne_iff_ne, not_and, not_not, beq_iff_eq, Prod.mk.injEq] at hne ⊢
  exact and_iff_left_of_imp hne

/-- What is kept is kept with its bytes. -/
theorem KeepsLines.bytes {asctime : Int → List Byte} {path : List Byte} {size : Int} {fs : Fs}
    {calls : List LogCall} {s : LogState} {n : Nat} (hfs : Untagged fs)
    (hs : logInit (some path) size true (true, true) fs = some s) (hn : n ≤ calls.length)
    (h : KeepsLines asctime path calls s n) : ∀ k ≤ n, ∃ s', logRun asctime (calls.take k) s = some s' ∧
      ∀ i < k, ∃ p, (p = path ∨ ∃ j < k, p = archiveOf asctime path calls j) ∧
        ∀ q, s'.fs.count (fun c => c == (some i, lineOf asctime calls i)) q = if q = p then 1 else 0 := by
  intro k hk
  obtain ⟨s', hrun, hall⟩ := h k hk
  refine ⟨s', hrun, fun i hi => ?_⟩
  obtain ⟨p, hp, hone⟩ := hall i hi
  exact ⟨p, hp, hone.bytes fun q => logRun_bytes hfs hs (Nat.le_trans hk hn) hrun i q⟩

/-- A run of calls keeps every line exactly once if and only if the archive names of its
rotations fit and are pairwise different, the first call apart. -/
theorem logInf_keeps_lines (asctime : Int → List Byte) (path : List Byte) (size : Int) (fs : Fs)
    (hfs : Untagged fs) (calls : List LogCall) (hok : Healthy asctime calls) (s : LogState)
    (hs : logInit (some path) size true (true, true) fs = some s) :
    KeepsLines asctime path calls s calls.length ↔
      ArchivesApart (Rotates asctime (logMaxsize size) ((Fs.size fs path).getD 0) calls)
        (ArchiveFits asctime path calls) (archiveOf asctime path calls) calls.length := by
  cases keeps_or_not (logInit_placed hfs hs) hok calls.length (Nat.le_refl _) with
  | inl h => exact iff_of_true h.1 h.2.1
  | inr h => exact iff_of_false h.1 h.2

def oneSecond (_ : Int) : List Byte :=
  [77, 111, 110, 32, 74, 97, 110, 32, 32, 49, 32, 48, 48, 58, 48, 48, 58, 48, 48, 32, 50, 48, 50, 52, 10]

def shortCall : LogCall where
  time := 0
  file := [109]
  line := 7
  type := 1
  msg := [120]
  stat := true
  rename := true
  fopen := true

theorem shortCall_healthy (n : Nat) : Healthy oneSecond (List.replicate n shortCall) := by
  intro c hc
  rw [(List.mem_replicate.mp hc).2]
  decide

/-- A clock that shows the seconds. -/
def seconds (t : Int) : List Byte := (oneSecond t).set 18 (UInt8.ofNat (48 + t.toNat))

def timedCalls : List LogCall := [shortCall, { shortCall with time := 1 }, { shortCall with time := 2 }]

/-- Three lines into a log of one kilobyte, which rotates at each of them: all are kept. -/
theorem logInf_keeps_three : ∃ s,
    logInit (some [108]) 1 true (true, true) (fun _ => none) = some s ∧
      (∀ i < 3, Rotates seconds (logMaxsize 1) 0 timedCalls i) ∧ KeepsLines seconds [108] timedCalls s 3 := by
  have hrot : ∀ i < 3, Rotates seconds (logMaxsize 1) 0 timedCalls i := by
    unfold Rotates
    decide
  have hapart : ArchivesApart (Rotates seconds (logMaxsize 1) 0 timedCalls) (ArchiveFits seconds [108] timedCalls)
      (archiveOf seconds [108] timedCalls) 3 := by
    refine ⟨fun i hi _ => ?_, fun i j h0 hij hj _ _ => ?_⟩
    · have hlt : ∀ i < 3, (archiveOf seconds [108] timedCalls i).length < 1024 := by decide
      exact hlt i hi
    · have h12 : i = 1 ∧ j = 2 := by omega
      rw [h12.1, h12.2]
      decide
  exact ⟨_, rfl, hrot, (logInf_keeps_lines seconds [108] 1 (fun _ => none) (fun p f h => by cases h) timedCalls
    (by unfold Healthy; decide) _ rfl).mpr hapart⟩

/-- A log of one kilobyte rotates at every call: the third archive of one second replaces the
second, and the first line is gone. -/
theorem logInf_loses_line : ∃ s,
    logInit (some [108]) 1 true (true, true) (fun _ => none) = some s ∧
      ¬ KeepsLines oneSecond [108] (List.replicate 3 shortCall) s 3 := by
  refine ⟨_, rfl, fun hkeep => ?_⟩
  have hempty : Untagged fun _ => none := fun p f h => by cases h
  have hplaced : Placed oneSecond [108] (logMaxsize 1) 0 (List.replicate 3 shortCall) 0 _ _ :=
    logInit_placed hempty rfl
  cases keeps_or_not hplaced (shortCall_healthy 3) 3 (by decide) with
  | inr h => exact h.1 hkeep
  | inl h =>
    have h₁ : Rotates oneSecond (logMaxsize 1) 0 (List.replicate 3 shortCall) 1 := by
      unfold Rotates
      decide
    have h₂ : Rotates oneSecond (logMaxsize 1) 0 (List.replicate 3 shortCall) 2 := by
      unfold Rotates
      decide
    exact h.2.1.apart 1 2 (by decide) (by decide) (by decide) h₁ h₂ rfl

end TimeTask
