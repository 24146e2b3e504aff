import TimeTask.LogHandle

/-! The log as a journal: the archives in the order of the rotations, and behind them the log
itself, hold everything that was ever written. -/
namespace TimeTask
open Lib

instance (asctime : Int → List Byte) (maxsize : Int) (size : Nat) (calls : List LogCall) (i : Nat) :
    Decidable (Rotates asctime maxsize size calls i) := inferInstanceAs (Decidable (_ = _))

def rotations (asctime : Int → List Byte) (maxsize : Int) (size : Nat) (calls : List LogCall) (k : Nat) :
    List Nat := (List.range k).filter fun i => Rotates asctime maxsize size calls i

def archives (asctime : Int → List Byte) (path : List Byte) (maxsize : Int) (size : Nat)
    (calls : List LogCall) (k : Nat) : List (List Byte) :=
  (rotations asctime maxsize size calls k).map (archiveOf asctime path calls)

def written (asctime : Int → List Byte) (calls : List LogCall) (k : Nat) : List Chunk :=
  (List.range k).map fun i => (some i, lineOf asctime calls i)

section Runs
variable {asctime : Int → List Byte} {path : List Byte} {maxsize : Int} {size : Nat}
  {calls : List LogCall}

/-- After `k` calls the journal is what was there, `old`, and the lines written since. -/
structure Journal (asctime : Int → List Byte) (path : List Byte) (maxsize : Int) (size : Nat)
    (calls : List LogCall) (fs : Fs) (k : Nat) (s : LogState) : Prop where
  ld : s.ld = some ⟨true, path, maxsize⟩
  count : s.calls = k
  length : Fs.size s.fs path = some (lengthBefore asctime maxsize size calls k)
  replay : s.fs.read (archives asctime path maxsize size calls k ++ [path]) =
    (fs path).getD [] ++ written asctime calls k
  archived : ∀ i ∈ rotations asctime maxsize size calls k,
    Fs.size s.fs (archiveOf asctime path calls i) = some (lengthBefore asctime maxsize size calls i)
  other : ∀ p, p ≠ path → p ∉ archives asctime path maxsize size calls k → s.fs p = fs p

theorem size_congr {fs gs : Fs} {p : List Byte} (h : gs p = fs p) : Fs.size gs p = Fs.size fs p := by
  rw [Fs.size, Fs.size, h]

theorem rotations_succ (k : Nat) : rotations asctime maxsize size calls (k + 1) =
    rotations asctime maxsize size calls k ++ if Rotates asctime maxsize size calls k then [k] else [] := by
  rw [rotations, List.range_succ, List.filter_append, ← rotations]
  by_cases hr : Rotates asctime maxsize size calls k
  · simp [hr]
  · simp [hr]

theorem archives_succ (k : Nat) : archives asctime path maxsize size calls (k + 1) =
    archives asctime path maxsize size calls k ++
      if Rotates asctime maxsize size calls k then [archiveOf asctime path calls k] else [] := by
  rw [archives, rotations_succ, List.map_append, ← archives]
  by_cases hr : Rotates asctime maxsize size calls k
  · simp [hr]
  · simp [hr]

theorem written_succ (k : Nat) :
    written asctime calls (k + 1) = written asctime calls k ++ [(some k, lineOf asctime calls k)] := by
  simp [written, List.range_succ]

theorem path_not_archive (k : Nat) : path ∉ archives asctime path maxsize size calls k := by
  intro hm
  obtain ⟨i, _, hi⟩ := List.mem_map.mp hm
  exact archiveOf_ne i hi.symm

theorem Journal.append {fs : Fs} {k : Nat} {s : LogState}
    (h : Journal asctime path maxsize size calls fs k s) (hr : ¬ Rotates asctime maxsize size calls k) :
    Journal asctime path maxsize size calls fs (k + 1)
      { s with
        fs := s.fs.append path (some k, lineOf asctime calls k)
        calls := s.calls + 1 } := by
  have hrot : rotations asctime maxsize size calls (k + 1) = rotations asctime maxsize size calls k := by
    rw [rotations_succ, if_neg hr, List.append_nil]
  have harch : archives asctime path maxsize size calls (k + 1) = archives asctime path maxsize size calls k := by
    rw [archives, hrot, archives]
  have hother : ∀ p, p ≠ path → (s.fs.append path (some k, lineOf asctime calls k)) p = s.fs p :=
    fun p hp => by simp [Files.append, hp]
  refine ⟨h.ld, by simp [h.count], ?_, ?_, fun i hi => ?_, fun p hp hpa => ?_⟩
  · simp only [Fs.size_append, h.length, Option.getD_some, lengthBefore_append hr]
  · rw [harch, Files.read_append_last s.fs (path_not_archive k), h.replay, written_succ, List.append_assoc]
  · rw [hrot] at hi
    exact (size_congr (hother _ (archiveOf_ne i).symm)).trans (h.archived i hi)
  · rw [harch] at hpa
    exact (hother p hp).trans (h.other p hp hpa)

theorem Journal.rotate {fs : Fs} {k : Nat} {s : LogState}
    (h : Journal asctime path maxsize size calls fs k s) (hr : Rotates asctime maxsize size calls k)
    (hnew : archiveOf asctime path calls k ∉ archives asctime path maxsize size calls k) :
    Journal asctime path maxsize size calls fs (k + 1)
      { s with
        fs := (((s.fs.rename path (archiveOf asctime path calls k)).touch path).append path
          (some k, lineOf asctime calls k))
        calls := s.calls + 1 } := by
  have hne : path ≠ archiveOf asctime path calls k := archiveOf_ne k
  have hexists : s.fs path ≠ none := by
    intro hn
    have hl := h.length
    simp [Fs.size, hn] at hl
  have hrot : rotations asctime maxsize size calls (k + 1) = rotations asctime maxsize size calls k ++ [k] := by
    rw [rotations_succ, if_pos hr]
  have harch : archives asctime path maxsize size calls (k + 1) =
      archives asctime path maxsize size calls k ++ [archiveOf asctime path calls k] := by
    rw [archives_succ, if_pos hr]
  have hpath : path ∉ archives asctime path maxsize size calls k ++ [archiveOf asctime path calls k] := by
    rw [← harch]
    exact path_not_archive (k + 1)
  have hother : ∀ p, p ≠ path → p ≠ archiveOf asctime path calls k →
      (((s.fs.rename path (archiveOf asctime path calls k)).touch path).append path
        (some k, lineOf asctime calls k)) p = s.fs p :=
    fun p hp hpa => by simp [Files.append, Files.touch, Files.rename, hp, hpa]
  refine ⟨h.ld, by simp [h.count], ?_, ?_, fun i hi => ?_, fun p hp hpa => ?_⟩
  · have hgone : Fs.size (s.fs.rename path (archiveOf asctime path calls k)) path = none := by
      rw [Fs.size, Files.rename_source s.fs hne]
      rfl
    simp only [Fs.size_append, Fs.size_touch, hgone, Option.getD_some, Option.getD_none,
      lengthBefore_rotate hr, Nat.zero_add]
  · rw [harch, Files.read_append_last _ hpath, Files.read_rotate s.fs (path_not_archive k) hnew hne hexists,
      h.replay, written_succ, List.append_assoc]
  · rw [hrot] at hi
    cases List.mem_append.mp hi with
    | inl hi =>
      have hia : archiveOf asctime path calls i ≠ archiveOf asctime path calls k :=
        fun he => hnew (he ▸ List.mem_map_of_mem hi)
      exact (size_congr (hother _ (archiveOf_ne i).symm hia)).trans (h.archived i hi)
    | inr hi =>
      rw [List.mem_singleton.mp hi]
      obtain ⟨f, hf⟩ := Option.ne_none_iff_exists'.mp hexists
      rw [← h.length, Fs.size, Fs.size]
      simp [Files.append, Files.touch, Files.rename, hne.symm, hf]
  · rw [harch, List.mem_append, not_or, List.mem_singleton] at hpa
    exact (hother p hp hpa.2).trans (h.other p hp hpa.1)

theorem logInit_journal {size : Int} {fs : Fs} {s : LogState}
    (hs : logInit (some path) size true (true, true) fs = some s) :
    Journal asctime path (logMaxsize size) ((Fs.size fs path).getD 0) calls fs 0 s := by
  simp only [logInit, Bool.and_self, if_true, Option.some.injEq] at hs
  subst hs
  refine ⟨rfl, rfl, Fs.size_touch fs path, ?_, by simp [rotations], fun p hp _ => ?_⟩
  · simp [archives, rotations, written, Files.read, Files.touch]
  · simp [Files.touch, hp]

theorem Journal.step {fs : Fs} {k : Nat} {s : LogState} {c : LogCall}
    (h : Journal asctime path maxsize size calls fs k s) (hok : Healthy asctime calls)
    (hc : calls[k]? = some c)
    (hfit : Rotates asctime maxsize size calls k → ArchiveFits asctime path calls k)
    (hnew : Rotates asctime maxsize size calls k →
      archiveOf asctime path calls k ∉ archives asctime path maxsize size calls k) :
    ∃ s', logInf asctime c s = some (0, s') ∧ Journal asctime path maxsize size calls fs (k + 1) s' := by
  obtain ⟨hst, hre, hop, hcomp⟩ := hok c (List.mem_of_getElem? hc)
  obtain ⟨buff, hb⟩ := Option.isSome_iff_exists.mp hcomp
  have hline : lineOf asctime calls k = buff := by simp [lineOf, hc, hb]
  by_cases hr : Rotates asctime maxsize size calls k
  · have harch : archiveOf asctime path calls k = archiveName path (asctime c.time) := by
      simp [archiveOf, hc]
    have hlen := hfit hr
    rw [ArchiveFits, harch, archiveName_length] at hlen
    have hj := h.rotate hr (hnew hr)
    rw [harch, hline] at hj
    refine ⟨_, ?_, hj⟩
    rw [logInf_rotate h.ld hb hst hre hop h.length hr, if_neg (by omega), h.count]
  · have hj := h.append hr
    rw [hline] at hj
    refine ⟨_, ?_, hj⟩
    rw [logInf_append h.ld hb hst h.length hr, h.count]

theorem journal_run {fs : Fs} {s : LogState} (h0 : Journal asctime path maxsize size calls fs 0 s)
    (hok : Healthy asctime calls) (k : Nat) (hk : k ≤ calls.length)
    (hfit : ∀ i ∈ rotations asctime maxsize size calls k, ArchiveFits asctime path calls i)
    (hnd : (archives asctime path maxsize size calls k).Nodup) :
    ∃ s', logRun asctime (calls.take k) s = some s' ∧ Journal asctime path maxsize size calls fs k s' := by
  induction k with
  | zero => exact ⟨s, by simp [logRun], h0⟩
  | succ k ih =>
    rw [archives_succ, List.nodup_append] at hnd
    obtain ⟨s', hrun, hj⟩ := ih (by omega)
      (fun i hi => hfit i (by rw [rotations_succ]; exact List.mem_append_left _ hi)) hnd.1
    have hc : calls[k]? = some calls[k] := List.getElem?_eq_getElem (by omega)
    obtain ⟨s'', hinf, hj'⟩ := hj.step hok hc
      (fun hr => hfit k (by rw [rotations_succ, if_pos hr]; exact List.mem_append_right _ (by simp)))
      (fun hr hm => hnd.2.2 _ hm _ (by rw [if_pos hr]; exact List.mem_singleton_self _) rfl)
    exact ⟨s'', by rw [logRun_take_succ asctime hc s, hrun, Option.bind_some, hinf, Option.map_some], hj'⟩

theorem rotates_long {k : Nat} (hr : Rotates asctime maxsize size calls k) :
    1024 ≤ maxsize ∧ maxsize - 1024 ≤ (lengthBefore asctime maxsize size calls k : Int) := by
  unfold Rotates isneedcp at hr
  by_cases hmax : maxsize < 1024
  · rw [if_pos hmax] at hr
    cases hr
  · rw [if_neg hmax] at hr
    by_cases hge : toInt (lengthBefore asctime maxsize size calls k : Int) ≥ maxsize - 1024
    · refine ⟨by omega, ?_⟩
      rw [toInt, Int.bmod_def] at hge
      split_ifs at hge <;> omega
    · simp only [if_neg hge] at hr
      cases hr

/-- Every archive has taken so much from what was written. -/
theorem rotations_bound (asctime : Int → List Byte) (maxsize : Int) (size : Nat) (calls : List LogCall)
    (k : Nat) :
    ((rotations asctime maxsize size calls k).length : Int) * (maxsize - 1024) +
        (lengthBefore asctime maxsize size calls k : Int) ≤
      size + (((List.range k).map fun i => (lineOf asctime calls i).length).sum : Nat) := by
  induction k with
  | zero => simp [rotations, lengthBefore]
  | succ k ih =>
    rw [rotations_succ, List.range_succ, List.map_append, List.sum_append, List.length_append]
    generalize ((List.range k).map fun i => (lineOf asctime calls i).length).sum = w at ih ⊢
    by_cases hr : Rotates asctime maxsize size calls k
    · obtain ⟨_, hlong⟩ := rotates_long hr
      rw [if_pos hr, lengthBefore_rotate hr]
      simp only [List.length_singleton, List.map_cons, List.map_nil, List.sum_cons, List.sum_nil]
      push_cast
      rw [Int.add_mul]
      omega
    · rw [if_neg hr, lengthBefore_append hr]
      simp only [List.length_nil, Nat.add_zero, List.map_cons, List.map_nil, List.sum_cons, List.sum_nil]
      push_cast
      omega

end Runs

/-- The journal of a run in which all calls get through and no two rotations share a name: the
archives in the order of the rotations and then the log are the old log and every line, in order;
no other file has changed; each archive but the one of the first call is within a kilobyte of the
bound; and so there are no more of them than what was written fills. -/
theorem log_replay (asctime : Int → List Byte) (path : List Byte) (size : Int) (fs : Fs)
    (hlen : (Fs.size fs path).getD 0 < 2 ^ 31) (calls : List LogCall) (hok : Healthy asctime calls)
    (s : LogState) (hs : logInit (some path) size true (true, true) fs = some s) (k : Nat)
    (hk : k ≤ calls.length)
    (hfit : ∀ i ∈ rotations asctime (logMaxsize size) ((Fs.size fs path).getD 0) calls k,
      ArchiveFits asctime path calls i)
    (hnd : (archives asctime path (logMaxsize size) ((Fs.size fs path).getD 0) calls k).Nodup) :
    ∃ s', logRun asctime (calls.take k) s = some s' ∧
      s'.fs.read (archives asctime path (logMaxsize size) ((Fs.size fs path).getD 0) calls k ++ [path]) =
        (fs path).getD [] ++ written asctime calls k ∧
      (∀ p, p ≠ path → p ∉ archives asctime path (logMaxsize size) ((Fs.size fs path).getD 0) calls k →
        s'.fs p = fs p) ∧
      (∀ i ∈ rotations asctime (logMaxsize size) ((Fs.size fs path).getD 0) calls k, 0 < i →
        ∃ n, Fs.size s'.fs (archiveOf asctime path calls i) = some n ∧
          logMaxsize size - 1024 ≤ n ∧ (n : Int) < logMaxsize size) ∧
      ((archives asctime path (logMaxsize size) ((Fs.size fs path).getD 0) calls k).length : Int) *
          (logMaxsize size - 1024) ≤ ((Fs.size fs path).getD 0 : Nat) +
        (((written asctime calls k).map fun c => c.2.length).sum : Nat) := by
  obtain ⟨s', hrun, hj⟩ := journal_run (logInit_journal hs) hok k hk hfit hnd
  have hbound := rotations_bound asctime (logMaxsize size) ((Fs.size fs path).getD 0) calls k
  have hwritten : (written asctime calls k).map (fun c => c.2.length) =
      (List.range k).map fun i => (lineOf asctime calls i).length := by
    rw [written, List.map_map]
    rfl
  refine ⟨s', hrun, hj.replay, hj.other, fun i hi h0 => ⟨_, hj.archived i hi, ?_, ?_⟩, ?_⟩
  · exact (rotates_long (of_decide_eq_true (List.mem_filter.mp hi).2)).2
  · obtain ⟨hmax, _⟩ := rotates_long (of_decide_eq_true (List.mem_filter.mp hi).2)
    obtain ⟨j, rfl⟩ : ∃ j, i = j + 1 := ⟨i - 1, by omega⟩
    exact lengthBefore_bounded hmax (logMaxsize_lt size) hlen j
  · rw [archives, List.length_map, hwritten]
    omega

/-- Two lines in two seconds into a log of one kilobyte, which rotates at each of them. -/
theorem log_replay_two : ∃ s, logInit (some [108]) 1 true (true, true) (fun _ => none) = some s ∧
    ∃ s', logRun seconds [shortCall, { shortCall with time := 1 }] s = some s' ∧
      s'.fs.read [archiveName [108] (seconds 0), archiveName [108] (seconds 1), [108]] =
        [(some 0, lineOf seconds [shortCall, { shortCall with time := 1 }] 0),
          (some 1, lineOf seconds [shortCall, { shortCall with time := 1 }] 1)] := by
  have hok : Healthy seconds [shortCall, { shortCall with time := 1 }] := by
    intro c hc
    simp only [List.mem_cons, List.not_mem_nil, or_false] at hc
    cases hc with
    | inl hc =>
      rw [hc]
      decide
    | inr hc =>
      rw [hc]
      decide
  have hrot : rotations seconds (logMaxsize 1) 0 [shortCall, { shortCall with time := 1 }] 2 = [0, 1] := by
    decide
  obtain ⟨s', hrun, hread, _⟩ := log_replay seconds [108] 1 (fun _ => none) (by decide)
    [shortCall, { shortCall with time := 1 }] hok _ rfl 2 (by decide)
    (by
      intro i hi
      have hi' : i ∈ [0, 1] := hrot ▸ hi
      simp only [List.mem_cons, List.not_mem_nil, or_false] at hi'
      unfold ArchiveFits
      cases hi' with
      | inl hi' =>
        rw [hi']
        decide
      | inr hi' =>
        rw [hi']
        decide)
    (by decide)
  exact ⟨_, rfl, s', hrun, hread⟩

end TimeTask
