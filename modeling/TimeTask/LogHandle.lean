import TimeTask.Rotation

/-! The life of a log handle and the length of its file, for any answers of stat, rename
and fopen. -/
namespace TimeTask
open Lib

/-- What stat reports of a log of `n` bytes. -/
def LogCall.statSize (c : LogCall) (n : Nat) : Option Nat := if c.stat then some n else none

/-- The length of the log in front of call number `k`, from the answers of the calls before it. -/
def sizeBefore (asctime : Int → List Byte) (maxsize : Int) (size : Nat) (calls : List LogCall) : Nat → Nat
  | 0 => size
  | k + 1 =>
    let n := sizeBefore asctime maxsize size calls k
    let moved := calls[k]?.any fun c => c.rename && isneedcp (c.statSize n) maxsize == 1
    (if moved then 0 else n) + (lineOf asctime calls k).length

/-- Call number `k` closes the stream and opens the log again. -/
def Reopens (asctime : Int → List Byte) (maxsize : Int) (size : Nat) (calls : List LogCall) (k : Nat)
    (c : LogCall) : Prop := isneedcp (c.statSize (sizeBefore asctime maxsize size calls k)) maxsize = 1

/-- Call number `k` stays inside its two buffers. -/
structure CallFits (asctime : Int → List Byte) (path : List Byte) (maxsize : Int) (size : Nat)
    (calls : List LogCall) (k : Nat) (c : LogCall) : Prop where
  line : (compose (asctime c.time) c).isSome
  archive : Reopens asctime maxsize size calls k c → (archiveName path (asctime c.time)).length < 1024

/-- Every call that closes the stream gets it back, as far as the calls stay inside their
buffers. -/
def StreamsBack (asctime : Int → List Byte) (path : List Byte) (maxsize : Int) (size : Nat)
    (calls : List LogCall) : Prop :=
  ∀ k c, calls[k]? = some c → Reopens asctime maxsize size calls k c →
    (∀ j ≤ k, ∀ d, calls[j]? = some d → CallFits asctime path maxsize size calls j d) → c.fopen = true

/-- In front of every call and of the last logDel the logdata is still there, and that
logDel frees it. -/
def HandleSafe (asctime : Int → List Byte) (calls : List LogCall) (s : LogState) : Prop :=
  (∀ k ≤ calls.length, ∀ s', logRun asctime (calls.take k) s = some s' → s'.ld.isSome) ∧
    ∀ s', logRun asctime calls s = some s' → ∃ s'', s'.logDel = some s'' ∧ s''.ld = none

section Handle
variable {asctime : Int → List Byte} {path : List Byte} {maxsize : Int} {size : Nat}
  {calls : List LogCall}

/-- The handle after `k` calls: its stream is open and the log has the computed length. -/
structure Live (asctime : Int → List Byte) (path : List Byte) (maxsize : Int) (size : Nat)
    (calls : List LogCall) (k : Nat) (s : LogState) : Prop where
  ld : s.ld = some ⟨true, path, maxsize⟩
  length : Fs.size s.fs path = some (sizeBefore asctime maxsize size calls k)

theorem Live.exists {k : Nat} {s : LogState} (h : Live asctime path maxsize size calls k s) :
    s.fs path ≠ none := by
  intro hn
  have hl := h.length
  simp [Fs.size, hn] at hl

theorem Live.overflow {k : Nat} {c : LogCall} {s : LogState}
    (h : Live asctime path maxsize size calls k s) (hf : ¬ CallFits asctime path maxsize size calls k c) :
    logInf asctime c s = none := by
  have hst : (if c.stat = true then s.fs.size path else none) =
      c.statSize (sizeBefore asctime maxsize size calls k) := by
    rw [LogCall.statSize, h.length]
  cases hb : compose (asctime c.time) c with
  | none => simp [logInf, h.ld, hb]
  | some buff =>
    have hre : Reopens asctime maxsize size calls k c := by
      by_contra hn
      exact hf ⟨by simp [hb], fun hr => absurd hr hn⟩
    have hlong : 1024 ≤ path.length + (asctime c.time).length + 5 := by
      by_contra hn
      exact hf ⟨by simp [hb], fun _ => by rw [archiveName_length]; omega⟩
    unfold Reopens at hre
    simp [logInf, h.ld, hb, hst, hre, hlong]

theorem Live.dropped {k : Nat} {c : LogCall} {s : LogState}
    (h : Live asctime path maxsize size calls k s) (hf : CallFits asctime path maxsize size calls k c)
    (hre : Reopens asctime maxsize size calls k c) (ho : c.fopen = false) :
    ∃ s', logInf asctime c s = some (-2, s') ∧ s'.ld = none := by
  have hst : (if c.stat = true then s.fs.size path else none) =
      c.statSize (sizeBefore asctime maxsize size calls k) := by
    rw [LogCall.statSize, h.length]
  obtain ⟨buff, hb⟩ := Option.isSome_iff_exists.mp hf.line
  have hshort : ¬ 1024 ≤ path.length + (asctime c.time).length + 5 := by
    have ha := hf.archive hre
    rw [archiveName_length] at ha
    omega
  unfold Reopens at hre
  refine ⟨{ s with
    fs := if c.rename then s.fs.rename path (archiveName path (asctime c.time)) else s.fs
    ld := none
    calls := s.calls + 1 }, ?_, rfl⟩
  simp only [logInf, h.ld, hb, hst, hre, hshort, ho]
  simp

theorem Live.written {k : Nat} {c : LogCall} {s : LogState}
    (h : Live asctime path maxsize size calls k s) (hc : calls[k]? = some c)
    (hf : CallFits asctime path maxsize size calls k c)
    (ho : Reopens asctime maxsize size calls k c → c.fopen = true) :
    ∃ s', logInf asctime c s = some (0, s') ∧ Live asctime path maxsize size calls (k + 1) s' := by
  have hst : (if c.stat = true then s.fs.size path else none) =
      c.statSize (sizeBefore asctime maxsize size calls k) := by
    rw [LogCall.statSize, h.length]
  obtain ⟨buff, hb⟩ := Option.isSome_iff_exists.mp hf.line
  have hline : lineOf asctime calls k = buff := by simp [lineOf, hc, hb]
  by_cases hre : Reopens asctime maxsize size calls k c
  · have hshort : ¬ 1024 ≤ path.length + (asctime c.time).length + 5 := by
      have ha := hf.archive hre
      rw [archiveName_length] at ha
      omega
    have hop := ho hre
    unfold Reopens at hre
    refine ⟨{ s with
      fs := ((if c.rename then s.fs.rename path (archiveName path (asctime c.time)) else s.fs).touch
        path).append path (some s.calls, buff)
      calls := s.calls + 1 }, ?_, h.ld, ?_⟩
    · simp only [logInf, h.ld, hb, hst, hre, hshort, hop]
      simp
    · rw [Fs.size_append, Fs.size_touch, Option.getD_some, sizeBefore, hline, hc]
      cases hr : c.rename with
      | true =>
        have hgone := Files.rename_source s.fs (archiveName_ne path (asctime c.time))
        simp [Fs.size, hgone, hre, hr]
      | false => simp [h.length, hr]
  · unfold Reopens at hre
    refine ⟨{ s with fs := s.fs.append path (some s.calls, buff), calls := s.calls + 1 }, ?_, h.ld, ?_⟩
    · simp only [logInf, h.ld, hb, hst, hre]
      simp
    · rw [Fs.size_append, sizeBefore, hline, hc, h.length]
      simp [hre]

/-- When the streams come back, a run that gets to call `k` gets there with a live handle. -/
theorem live_of_back {s : LogState} (h0 : Live asctime path maxsize size calls 0 s)
    (hback : StreamsBack asctime path maxsize size calls) (k : Nat) (hk : k ≤ calls.length) :
    ∀ s', logRun asctime (calls.take k) s = some s' → Live asctime path maxsize size calls k s' ∧
      ∀ j < k, ∀ d, calls[j]? = some d → CallFits asctime path maxsize size calls j d := by
  induction k with
  | zero =>
    intro s' hs'
    cases hs'
    exact ⟨h0, fun j hj => by omega⟩
  | succ k ih =>
    intro s' hs'
    have hc : calls[k]? = some calls[k] := List.getElem?_eq_getElem (by omega)
    rw [logRun_take_succ asctime hc s] at hs'
    cases hrun : logRun asctime (calls.take k) s with
    | none => simp [hrun] at hs'
    | some t =>
      obtain ⟨hlive, hfits⟩ := ih (by omega) t hrun
      rw [hrun, Option.bind_some] at hs'
      by_cases hf : CallFits asctime path maxsize size calls k calls[k]
      · have hall : ∀ j ≤ k, ∀ d, calls[j]? = some d → CallFits asctime path maxsize size calls j d := by
          intro j hj d hd
          by_cases hjk : j = k
          · subst hjk
            rw [hc, Option.some.injEq] at hd
            rw [← hd]
            exact hf
          · exact hfits j (by omega) d hd
        obtain ⟨u, hu, hlu⟩ := hlive.written hc hf fun hre => hback k _ hc hre hall
        rw [hu, Option.map_some, Option.some.injEq] at hs'
        subst hs'
        exact ⟨hlu, fun j hj => hall j (by omega)⟩
      · simp [hlive.overflow hf] at hs'

theorem live_of_safe {s : LogState} (h0 : Live asctime path maxsize size calls 0 s)
    (hsafe : HandleSafe asctime calls s) (k : Nat) (hk : k ≤ calls.length)
    (hfits : ∀ j < k, ∀ d, calls[j]? = some d → CallFits asctime path maxsize size calls j d) :
    ∃ s', logRun asctime (calls.take k) s = some s' ∧ Live asctime path maxsize size calls k s' := by
  induction k with
  | zero => exact ⟨s, rfl, h0⟩
  | succ k ih =>
    obtain ⟨t, hrun, hlive⟩ := ih (by omega) fun j hj => hfits j (by omega)
    have hc : calls[k]? = some calls[k] := List.getElem?_eq_getElem (by omega)
    have hf := hfits k (by omega) _ hc
    have hnext := logRun_take_succ asctime hc s
    rw [hrun, Option.bind_some] at hnext
    have hop : Reopens asctime maxsize size calls k calls[k] → calls[k].fopen = true := by
      intro hre
      by_contra ho
      obtain ⟨u, hu, hdead⟩ := hlive.dropped hf hre (by simpa using ho)
      rw [hu] at hnext
      have hsome := hsafe.1 (k + 1) hk u hnext
      simp [hdead] at hsome
    obtain ⟨u, hu, hlu⟩ := hlive.written hc hf hop
    rw [hu] at hnext
    exact ⟨u, hnext, hlu⟩

theorem safe_of_back {s : LogState} (h0 : Live asctime path maxsize size calls 0 s)
    (hback : StreamsBack asctime path maxsize size calls) : HandleSafe asctime calls s := by
  have hlive := live_of_back h0 hback
  refine ⟨fun k hk s' hs' => by simp [(hlive k hk s' hs').1.ld], fun s' hs' => ?_⟩
  have hend := (hlive calls.length (Nat.le_refl _) s' (by rw [List.take_length]; exact hs')).1
  exact ⟨{ s' with ld := none }, by simp [LogState.logDel, hend.ld], rfl⟩

theorem logInit_live {path : List Byte} {size : Int} {fopen : Bool} {mem : Bool × Bool} {fs : Fs}
    {s : LogState} (hs : logInit (some path) size fopen mem fs = some s) :
    Live asctime path (logMaxsize size) ((Fs.size fs path).getD 0) calls 0 s := by
  simp only [logInit] at hs
  split_ifs at hs
  cases hs
  exact ⟨rfl, Fs.size_touch fs path⟩

end Handle

/-- The handle outlives all calls and is freed by the last logDel exactly when every call
that closes the stream gets it back. -/
theorem logInf_keeps_handle (asctime : Int → List Byte) (path : List Byte) (size : Int) (fopen : Bool)
    (mem : Bool × Bool) (fs : Fs) (calls : List LogCall) (s : LogState)
    (hs : logInit (some path) size fopen mem fs = some s) :
    HandleSafe asctime calls s ↔
      StreamsBack asctime path (logMaxsize size) ((Fs.size fs path).getD 0) calls := by
  have h0 : Live asctime path (logMaxsize size) ((Fs.size fs path).getD 0) calls 0 s := logInit_live hs
  constructor
  · intro hsafe k c hc hre hfits
    have hk : k < calls.length := (List.getElem?_eq_some_iff.mp hc).1
    obtain ⟨t, hrun, hlive⟩ := live_of_safe h0 hsafe k (by omega) fun j hj => hfits j (by omega)
    by_contra ho
    obtain ⟨u, hu, hdead⟩ := hlive.dropped (hfits k (Nat.le_refl k) c hc) hre (by simpa using ho)
    have hnext := logRun_take_succ asctime hc s
    rw [hrun, Option.bind_some, hu] at hnext
    have hsome := hsafe.1 (k + 1) hk u hnext
    simp [hdead] at hsome
  · exact safe_of_back h0

/-- The disk is full: the log is not opened again. -/
def noStreamCall : LogCall := { shortCall with fopen := false }

/-- Two calls on a log of one kilobyte, the second without its stream. -/
theorem logInf_keeps_handle_two : ∃ s,
    logInit (some [108]) 1 true (true, true) (fun _ => none) = some s ∧
    (HandleSafe oneSecond [shortCall, noStreamCall] s ↔
      StreamsBack oneSecond [108] (logMaxsize 1) 0 [shortCall, noStreamCall]) :=
  ⟨_, rfl, logInf_keeps_handle oneSecond [108] 1 true (true, true) (fun _ => none)
    [shortCall, noStreamCall] _ rfl⟩

/-- A log of one kilobyte is closed at the first call, and the handle that main still holds
is freed when the stream does not come back. -/
theorem logInf_frees_handle : ∃ s,
    logInit (some [108]) 1 true (true, true) (fun _ => none) = some s ∧
      ¬ HandleSafe oneSecond [noStreamCall] s := by
  have hinit : ∃ s, logInit (some [108]) 1 true (true, true) (fun _ => none) = some s := ⟨_, rfl⟩
  obtain ⟨s, hs⟩ := hinit
  refine ⟨s, hs, fun hsafe => ?_⟩
  have hre : Reopens oneSecond (logMaxsize 1) 0 [noStreamCall] 0 noStreamCall := by
    unfold Reopens
    decide
  have h0 : Live oneSecond [108] (logMaxsize 1) 0 [noStreamCall] 0 s := logInit_live hs
  obtain ⟨s', hs', hdead⟩ := h0.dropped ⟨by decide, fun _ => by decide⟩ hre rfl
  have hsome := hsafe.1 1 (Nat.le_refl 1) s' (by
    rw [show [noStreamCall].take 1 = [noStreamCall] from rfl, logRun, hs']
    rfl)
  simp [hdead] at hsome

section Bounded
variable {asctime : Int → List Byte} {path : List Byte} {maxsize : Int} {size : Nat}
  {calls : List LogCall}

theorem sizeBefore_healthy (hok : Healthy asctime calls) (k : Nat) (hk : k ≤ calls.length) :
    sizeBefore asctime maxsize size calls k = lengthBefore asctime maxsize size calls k := by
  induction k with
  | zero => rfl
  | succ k ih =>
    have hc : calls[k]? = some calls[k] := List.getElem?_eq_getElem (by omega)
    obtain ⟨hst, hre, _⟩ := hok calls[k] (List.getElem_mem (by omega))
    have hstat : ∀ n, calls[k].statSize n = some n := fun n => by rw [LogCall.statSize, hst, if_pos rfl]
    simp [sizeBefore, lengthBefore, hc, hre, hstat, ih (by omega)]

theorem reopens_healthy (hok : Healthy asctime calls) {k : Nat} {c : LogCall} (hc : calls[k]? = some c) :
    Reopens asctime maxsize size calls k c ↔ Rotates asctime maxsize size calls k := by
  obtain ⟨hk, hck⟩ := List.getElem?_eq_some_iff.mp hc
  have hst := (hok c (by rw [← hck]; exact List.getElem_mem hk)).1
  rw [Reopens, Rotates, sizeBefore_healthy hok k (by omega), LogCall.statSize, if_pos hst]

theorem lineOf_length (k : Nat) : (lineOf asctime calls k).length < 1024 := by
  cases hc : calls[k]? with
  | none => simp [lineOf, hc]
  | some c =>
    cases hb : compose (asctime c.time) c with
    | none => simp [lineOf, hc, hb]
    | some buff =>
      simp only [lineOf, hc, Option.bind_some, hb, Option.getD_some]
      simp only [compose] at hb
      split_ifs at hb with hfit
      cases hb
      exact hfit.2.2

theorem lengthBefore_step {k : Nat} (hmax : 1024 ≤ maxsize)
    (hn : lengthBefore asctime maxsize size calls k < 2 ^ 31) :
    (lengthBefore asctime maxsize size calls (k + 1) : Int) < maxsize := by
  have hline : (lineOf asctime calls k).length < 1024 := lineOf_length k
  by_cases hr : Rotates asctime maxsize size calls k
  · rw [lengthBefore_rotate hr]
    omega
  · rw [lengthBefore_append hr]
    unfold Rotates isneedcp at hr
    have hint := toInt_eq (x := (lengthBefore asctime maxsize size calls k : Int)) (by omega) (by omega)
    rw [if_neg (by omega)] at hr
    simp only [hint] at hr
    have hlt : ¬ (lengthBefore asctime maxsize size calls k : Int) ≥ maxsize - 1024 := by
      intro hge
      rw [if_pos hge] at hr
      exact hr rfl
    omega

theorem lengthBefore_bounded (hmax : 1024 ≤ maxsize) (hbig : maxsize < 2 ^ 31) (hn : size < 2 ^ 31)
    (k : Nat) : (lengthBefore asctime maxsize size calls (k + 1) : Int) < maxsize := by
  induction k with
  | zero => exact lengthBefore_step hmax hn
  | succ k ih => exact lengthBefore_step hmax (by omega)

theorem healthy_back (hok : Healthy asctime calls) : StreamsBack asctime path maxsize size calls := by
  intro j c hc _ _
  obtain ⟨hj, hcj⟩ := List.getElem?_eq_some_iff.mp hc
  exact (hok c (by rw [← hcj]; exact List.getElem_mem hj)).2.2.1

/-- The calls get through if and only if the archive names of the rotations fit their buffer. -/
theorem logRun_comes {s : LogState} (h0 : Live asctime path maxsize size calls 0 s) (hok : Healthy asctime calls)
    {k : Nat} (hk : k ≤ calls.length) : (∃ s', logRun asctime (calls.take k) s = some s') ↔
      ∀ i < k, Rotates asctime maxsize size calls i → ArchiveFits asctime path calls i := by
  have hback : StreamsBack asctime path maxsize size calls := healthy_back hok
  constructor
  · intro hrun i hi hr
    obtain ⟨s', hs'⟩ := hrun
    have hc : calls[i]? = some calls[i] := List.getElem?_eq_getElem (by omega)
    have hfit := (live_of_back h0 hback k hk s' hs').2 i hi _ hc
    have harch := hfit.archive ((reopens_healthy hok hc).mpr hr)
    simpa [ArchiveFits, archiveOf, hc] using harch
  · intro hfits
    have hcalls : ∀ j < k, ∀ d, calls[j]? = some d → CallFits asctime path maxsize size calls j d := by
      intro j hj d hd
      obtain ⟨hjl, hdj⟩ := List.getElem?_eq_some_iff.mp hd
      refine ⟨(hok d (by rw [← hdj]; exact List.getElem_mem hjl)).2.2.2, fun hre => ?_⟩
      have harch := hfits j hj ((reopens_healthy hok hd).mp hre)
      simpa [ArchiveFits, archiveOf, hd] using harch
    obtain ⟨s', hs', _⟩ := live_of_safe h0 (safe_of_back h0 hback) k hk hcalls
    exact ⟨s', hs'⟩

theorem logRun_below {s : LogState} (h0 : Live asctime path maxsize size calls 0 s) (hok : Healthy asctime calls)
    (hmax : 1024 ≤ maxsize) (hbig : maxsize < 2 ^ 31) (hn : size < 2 ^ 31) {k : Nat} (hk : k < calls.length)
    {s' : LogState} (hs' : logRun asctime (calls.take (k + 1)) s = some s') :
    ∃ n : Nat, Fs.size s'.fs path = some n ∧ (n : Int) < maxsize := by
  have hlive := live_of_back h0 (healthy_back hok) (k + 1) hk s' hs'
  have hlen := hlive.1.length
  rw [sizeBefore_healthy hok (k + 1) hk] at hlen
  exact ⟨_, hlen, lengthBefore_bounded hmax hbig hn k⟩

end Bounded

/-- After every call the log is there and shorter than its bound. -/
def StaysBelow (asctime : Int → List Byte) (path : List Byte) (maxsize : Int) (calls : List LogCall)
    (s : LogState) : Prop :=
  ∀ k ≤ calls.length, 0 < k → ∃ (s' : LogState) (n : Nat),
    logRun asctime (calls.take k) s = some s' ∧ Fs.size s'.fs path = some n ∧ (n : Int) < maxsize

/-- The log stays below its bound if and only if the archive name of every call that rotates
it fits the buffer of 1024 bytes. -/
theorem logInf_bounded (asctime : Int → List Byte) (path : List Byte) (size : Int) (hsize : 1 ≤ size)
    (fs : Fs) (hlen : (Fs.size fs path).getD 0 < 2 ^ 31) (calls : List LogCall)
    (hok : Healthy asctime calls) (s : LogState)
    (hs : logInit (some path) size true (true, true) fs = some s) :
    StaysBelow asctime path (logMaxsize size) calls s ↔
      ∀ i < calls.length, Rotates asctime (logMaxsize size) ((Fs.size fs path).getD 0) calls i →
        ArchiveFits asctime path calls i := by
  have h0 : Live asctime path (logMaxsize size) ((Fs.size fs path).getD 0) calls 0 s := logInit_live hs
  constructor
  · intro hbelow i hi hr
    obtain ⟨s', _, hs', _⟩ := hbelow (i + 1) hi (by omega)
    exact (logRun_comes h0 hok hi).mp ⟨s', hs'⟩ i (by omega) hr
  · intro hfits k hk hk0
    obtain ⟨j, rfl⟩ : ∃ j, k = j + 1 := ⟨k - 1, by omega⟩
    obtain ⟨s', hs'⟩ := (logRun_comes h0 hok hk).mpr fun i hi => hfits i (by omega)
    obtain ⟨n, hn, hlt⟩ := logRun_below h0 hok (logMaxsize_ge hsize) (logMaxsize_lt size) hlen hk hs'
    exact ⟨s', n, hs', hn, hlt⟩

/-- A line of 1014 bytes. -/
def wideCall : LogCall := { shortCall with msg := List.replicate 970 120 }

/-- The first call finds too long a file, the third one has no room left below the reserve. -/
def fillCalls : List LogCall := [wideCall, { wideCall with time := 1 }, { wideCall with time := 2 }]

def oldLog : Fs := fun p => if p = [108] then some [(none, List.replicate 1500 120)] else none

/-- Three long lines into a log of two kilobytes: it rotates, grows and rotates again. -/
theorem logInf_bounded_fill : ∃ s, logInit (some [108]) 2 true (true, true) oldLog = some s ∧
    Rotates seconds (logMaxsize 2) 1500 fillCalls 0 ∧ ¬ Rotates seconds (logMaxsize 2) 1500 fillCalls 1 ∧
    Rotates seconds (logMaxsize 2) 1500 fillCalls 2 ∧ StaysBelow seconds [108] (logMaxsize 2) fillCalls s := by
  have hlen : (Fs.size oldLog [108]).getD 0 = 1500 := by decide +kernel
  have hfits : ∀ i < 3, (archiveOf seconds [108] fillCalls i).length < 1024 := by decide
  refine ⟨_, rfl, ?_, ?_, ?_, (logInf_bounded seconds [108] 2 (by decide) oldLog (by omega) fillCalls
    (by unfold Healthy; decide +kernel) _ rfl).mpr fun i hi _ => hfits i hi⟩ <;>
  · unfold Rotates
    decide +kernel

/-- One short line into a log of one kilobyte whose path has 994 bytes: the name of the archive
has 1024, one too many with its zero. -/
theorem logInf_long_path : ∃ s, logInit (some (List.replicate 994 108)) 1 true (true, true) (fun _ => none) = some s ∧
    Healthy oneSecond [shortCall] ∧
    ¬ StaysBelow oneSecond (List.replicate 994 108) (logMaxsize 1) [shortCall] s := by
  obtain ⟨s, hs⟩ : ∃ s, logInit (some (List.replicate 994 108)) 1 true (true, true) (fun _ => none) = some s :=
    ⟨_, rfl⟩
  have hok : Healthy oneSecond [shortCall] := shortCall_healthy 1
  have h0 : Live oneSecond (List.replicate 994 108) (logMaxsize 1) 0 [shortCall] 0 s := logInit_live hs
  refine ⟨s, hs, hok, fun hbelow => ?_⟩
  obtain ⟨s', _, hs', _⟩ := hbelow 1 (Nat.le_refl 1) (by decide)
  have hrot : Rotates oneSecond (logMaxsize 1) 0 [shortCall] 0 := by
    unfold Rotates
    decide
  have hfit := (logRun_comes h0 hok (Nat.le_refl 1)).mp ⟨s', hs'⟩ 0 (by decide) hrot
  rw [ArchiveFits, archiveOf, archiveName_length, List.length_replicate] at hfit
  exact absurd hfit (by decide)

end TimeTask
