import TimeTask.Process

/-! main from opendir to TimeInit: its statements do what loadLib and toSetCycdata compute. -/
namespace TimeTask
open Lib

/-- What main gets from outside before TimeInit: the results of loadFile and readFile, and the
directory stream, from which each readdir takes the next name. -/
def outside (conf : Option (List Byte)) (files : Option (List (Addr × Filedate))) (f : Frame)
    (dirdat : Option (List Entry)) : Ans × Option (List Entry) :=
  match f, dirdat with
  | .main (.readdir _), some (e :: es) => (⟨0, none, false, conf, files, true, some e, false⟩, some es)
  | _, _ => (⟨0, none, false, conf, files, dirdat.isSome, none, false⟩, dirdat)

/-- loadLib and toSetCycdata, as main calls them. A negative result leads to END. -/
def boot (dirch : List Byte) (dirdat : Option (List Entry)) (m : Mem) : Option (Int × Mem) :=
  match loadLib (some dirch) dirdat m with
  | none => none
  | some (res, m) => if res < 0 then some (res, m) else toSetCycdata m.filehead m.cychead m

section Steps
variable (dirch : List Byte) (conf : Option (List Byte)) (files : Option (List (Addr × Filedate)))

abbrev bootBody : Frame × Mem × Option (List Entry) →
    Pass (Frame × Mem × Option (List Entry)) (Bool × Mem × Option (List Entry)) :=
  (daemon dirch).worldBody (outside conf files)

variable {dirch}

theorem fill_goes (tem : Addr) (i : LibInfo) (n : Nat) (w : Option (List Entry)) :
    ∀ (fs : List Field) (m : Mem), Goes (bootBody dirch conf files) (.main (.fill tem i fs n), m, w)
      (.main (.readdir (n + 1)), fs.foldl (fun m f => m.update tem fun c => f.store i c) m, w) := by
  intro fs
  induction fs with
  | nil => exact fun m => Goes.one rfl
  | cons f fs ih =>
    intro m
    have hstep : Goes (bootBody dirch conf files) (.main (.fill tem i (f :: fs) n), m, w)
        (.main (.fill tem i fs n), m.update tem fun c => f.store i c, w) := Goes.one rfl
    exact hstep.trans (ih _)

theorem make_goes {i : LibInfo} {n : Nat} {w : Option (List Entry)} {m m' : Mem} {a : Addr}
    (h : cycmake true none m = some (some a, m')) :
    Goes (bootBody dirch conf files) (.main (.malloc i true n), m, w)
      (.main (.readdir (n + 1)), fillNode a i m', w) := by
  simp only [cycmake, if_true, Option.map_eq_some_iff, Prod.mk.injEq, Option.some.injEq] at h
  obtain ⟨m₁, hlink, ha, hm⟩ := h
  subst ha
  subst hm
  have hmalloc : Goes (bootBody dirch conf files) (.main (.malloc i true n), m, w)
      (.main (.linkHead (cycmakeMalloc none m).1 i n), (cycmakeMalloc none m).2, w) := Goes.one rfl
  have hhead : Goes (bootBody dirch conf files)
      (.main (.linkHead (cycmakeMalloc none m).1 i n), (cycmakeMalloc none m).2, w)
      (.main (.linkTail (cycmakeMalloc none m).1 i n), m₁, w) := by
    refine Goes.one ?_
    simp only [Machine.worldBody, daemon, mainStep, hlink, outside]
  have htail : Goes (bootBody dirch conf files) (.main (.linkTail (cycmakeMalloc none m).1 i n), m₁, w)
      (.main (.fill (cycmakeMalloc none m).1 i fields n), linkTail (cycmakeMalloc none m).1 m₁, w) :=
    Goes.one rfl
  exact hmalloc.trans (hhead.trans (htail.trans (fill_goes conf files _ i n w fields _)))

/-- malloc hands out a node, and linking it goes through a released one. -/
theorem make_dies {i : LibInfo} {n : Nat} {w : Option (List Entry)} {m : Mem}
    (h : cycmake true none m = none) :
    ∃ r, Leaves (bootBody dirch conf files) (.main (.malloc i true n), m, w) (false, r) := by
  simp only [cycmake, if_true, Option.map_eq_none_iff] at h
  have hmalloc : Goes (bootBody dirch conf files) (.main (.malloc i true n), m, w)
      (.main (.linkHead (cycmakeMalloc none m).1 i n), (cycmakeMalloc none m).2, w) := Goes.one rfl
  refine ⟨((cycmakeMalloc none m).2, w), Leaves.of_goes hmalloc (Leaves.now ?_)⟩
  simp only [Machine.worldBody, daemon, mainStep, h, outside, crash]

section Entry
variable {e : Entry} (es : List Entry) (n : Nat) (m : Mem)

theorem readdir_goes (hc : e.candidate = true) (hlen : ¬ 64 ≤ (e.chbb dirch).length) :
    Goes (bootBody dirch conf files) (.main (.readdir n), m, some (e :: es))
      (.main (.dlopen e n), m, some es) := by
  refine Goes.one ?_
  simp only [Machine.worldBody, daemon, mainStep, outside, hc, Bool.not_true, Bool.false_eq_true,
    if_false, if_neg hlen]

theorem dlopen_goes {syms : Method → Option Addr} (hlib : e.lib = some syms) :
    Goes (bootBody dirch conf files) (.main (.dlopen e n), m, some es)
      (.main (.dlsym ⟨(dlopen m).1, e.chaa, e.chbb dirch, syms⟩ e.malloc n), (dlopen m).2, some es) := by
  refine Goes.one ?_
  simp only [Machine.worldBody, daemon, mainStep, outside, hlib]

theorem dlsym_goes {i : LibInfo} {ok : Bool} (hall : (Method.all.all fun k => (i.syms k).isNone) = false) :
    Goes (bootBody dirch conf files) (.main (.dlsym i ok n), m, some es)
      (.main (.malloc i ok n), m, some es) := by
  refine Goes.one ?_
  simp only [Machine.worldBody, daemon, mainStep, outside, hall, Bool.false_eq_true, if_false]

end Entry

/-- The loop over the directory: one statement after the other comes where the function does. -/
theorem loadLoop_goes (es : List Entry) : ∀ (n : Nat) (m m' : Mem) (res : Int),
    loadLoop dirch es n m = some (res, m') →
    ∃ w, Goes (bootBody dirch conf files) (.main (.readdir n), m, some es)
      (.main (if res < 0 then .END else .toSet), m', w) := by
  induction es with
  | nil =>
    intro n m m' res h
    simp only [loadLoop, Option.some.injEq, Prod.mk.injEq] at h
    obtain ⟨hres, hm⟩ := h
    subst hm
    refine ⟨some [], Goes.one ?_⟩
    by_cases hn : n = 0
    · rw [if_pos hn] at hres
      simp [Machine.worldBody, daemon, mainStep, outside, ← hres, hn, tcsOtherErr]
    · rw [if_neg hn] at hres
      simp [Machine.worldBody, daemon, mainStep, outside, ← hres, hn]
  | cons e es ih =>
    intro n m m' res h
    cases hc : e.candidate with
    | false =>
      simp only [loadLoop, hc, Bool.not_false, if_true] at h
      obtain ⟨w, hw⟩ := ih n m m' res h
      refine ⟨w, (Goes.one ?_).trans hw⟩
      simp [Machine.worldBody, daemon, mainStep, outside, hc]
    | true =>
      simp only [loadLoop, hc, Bool.not_true, Bool.false_eq_true, if_false] at h
      by_cases hlen : 64 ≤ (e.chbb dirch).length
      · simp [hlen] at h
      rw [if_neg hlen] at h
      have hread := readdir_goes conf files es n m hc hlen
      cases hlib : e.lib with
      | none =>
        simp only [hlib, Option.some.injEq, Prod.mk.injEq] at h
        obtain ⟨hres, hm⟩ := h
        refine ⟨some es, hread.trans (Goes.one ?_)⟩
        simp [Machine.worldBody, daemon, mainStep, outside, hlib, ← hres, hm, tcsOtherErr]
      | some syms =>
        simp only [hlib] at h
        have hto := hread.trans (dlopen_goes conf files es n m hlib)
        cases hall : Method.all.all fun k => (syms k).isNone with
        | true =>
          rw [hall, if_pos rfl] at h
          obtain ⟨m₁, hclose, he⟩ := Option.map_eq_some_iff.mp h
          cases he
          refine ⟨some es, hto.trans (Goes.one ?_)⟩
          simp only [Machine.worldBody, daemon, mainStep, outside, hall, if_true, hclose]
          rfl
        | false =>
          rw [hall, if_neg Bool.false_ne_true] at h
          have hto := hto.trans (dlsym_goes conf files es n (dlopen m).2 hall)
          cases hmal : e.malloc with
          | false =>
            rw [hmal] at h hto
            simp only [cycmake, Bool.false_eq_true, if_false, Option.some.injEq, Prod.mk.injEq] at h
            obtain ⟨hres, hm⟩ := h
            refine ⟨some es, hto.trans (Goes.one ?_)⟩
            rw [← hres, ← hm]
            rfl
          | true =>
            rw [hmal] at h hto
            cases hmk : cycmake true none (dlopen m).2 with
            | none =>
              rw [hmk] at h
              cases h
            | some q =>
              obtain ⟨o, m₁⟩ := q
              cases o with
              | none =>
                simp [cycmake] at hmk
              | some a =>
                rw [hmk] at h
                obtain ⟨w, hw⟩ := ih (n + 1) _ m' res h
                exact ⟨w, hto.trans ((make_goes conf files hmk).trans hw)⟩

/-- Where the function has no result, a statement touches what is not there. -/
theorem loadLoop_dies (es : List Entry) : ∀ (n : Nat) (m : Mem), loadLoop dirch es n m = none →
    ∃ r, Leaves (bootBody dirch conf files) (.main (.readdir n), m, some es) (false, r) := by
  induction es with
  | nil =>
    intro n m h
    simp [loadLoop] at h
  | cons e es ih =>
    intro n m h
    cases hc : e.candidate with
    | false =>
      simp only [loadLoop, hc, Bool.not_false, if_true] at h
      obtain ⟨r, hr⟩ := ih n m h
      refine ⟨r, Leaves.step ?_ hr⟩
      simp [Machine.worldBody, daemon, mainStep, outside, hc]
    | true =>
      simp only [loadLoop, hc, Bool.not_true, Bool.false_eq_true, if_false] at h
      by_cases hlen : 64 ≤ (e.chbb dirch).length
      · refine ⟨(m, some es), Leaves.now ?_⟩
        simp only [Machine.worldBody, daemon, mainStep, outside, hc, Bool.not_true, Bool.false_eq_true,
          if_false, if_pos hlen, crash]
      rw [if_neg hlen] at h
      cases hlib : e.lib with
      | none => simp [hlib] at h
      | some syms =>
        simp only [hlib] at h
        have hto := (readdir_goes conf files es n m hc hlen).trans
          (dlopen_goes conf files es n m hlib)
        cases hall : Method.all.all fun k => (syms k).isNone with
        | true =>
          rw [hall, if_pos rfl, Option.map_eq_none_iff] at h
          simp [dlclose, dlopen] at h
        | false =>
          rw [hall, if_neg Bool.false_ne_true] at h
          have hto := hto.trans (dlsym_goes conf files es n (dlopen m).2 hall)
          cases hmal : e.malloc with
          | false =>
            rw [hmal] at h
            simp [cycmake] at h
          | true =>
            rw [hmal] at h hto
            cases hmk : cycmake true none (dlopen m).2 with
            | none =>
              obtain ⟨r, hr⟩ := make_dies conf files (n := n) (w := some es)
                (i := ⟨(dlopen m).1, e.chaa, e.chbb dirch, syms⟩) hmk
              exact ⟨r, Leaves.of_goes hto hr⟩
            | some q =>
              obtain ⟨o, m₁⟩ := q
              cases o with
              | none => simp [cycmake] at hmk
              | some a =>
                rw [hmk] at h
                obtain ⟨r, hr⟩ := ih (n + 1) _ h
                exact ⟨r, Leaves.of_goes (hto.trans (make_goes conf files hmk)) hr⟩

theorem bindLoop_goes (chead : Option Addr) (w : Option (List Entry)) (fs : List (Addr × Filedate)) :
    ∀ (m m' : Mem) (res : Int), bindLoop chead fs m = some (res, m') →
      (res = 0 ∨ res < 0) ∧ Goes (bootBody dirch conf files) (.main (.bind chead fs), m, w)
        (.main (if res < 0 then .END else .sweep chead), m', w) := by
  induction fs with
  | nil =>
    intro m m' res h
    simp only [bindLoop, Option.some.injEq, Prod.mk.injEq] at h
    obtain ⟨hres, hm⟩ := h
    subst hres
    subst hm
    exact ⟨Or.inl rfl, Goes.one rfl⟩
  | cons f fs ih =>
    intro m m' res h
    simp only [bindLoop] at h
    cases hmatch : matchModule m f.2.name chead with
    | none => simp [hmatch] at h
    | some o =>
      rw [hmatch] at h
      cases o with
      | none =>
        simp only [Option.some.injEq, Prod.mk.injEq] at h
        obtain ⟨hres, hm⟩ := h
        subst hres
        subst hm
        refine ⟨Or.inr (by decide), Goes.one ?_⟩
        simp only [Machine.worldBody, daemon, mainStep, outside, hmatch]
        rfl
      | some a =>
        simp only at h
        cases hc : m.node a with
        | none => simp [hc] at h
        | some c =>
          simp only [hc] at h
          by_cases hfd : c.fdate = none
          · rw [if_neg (not_not_intro hfd)] at h
            obtain ⟨hres, hgo⟩ := ih _ m' res h
            have hfind : Goes (bootBody dirch conf files) (.main (.bind chead (f :: fs)), m, w)
                (.main (.setFdate a f.1 chead fs), m, w) := by
              refine Goes.one ?_
              simp [Machine.worldBody, daemon, mainStep, outside, hmatch, hc, hfd]
            have hset : Goes (bootBody dirch conf files) (.main (.setFdate a f.1 chead fs), m, w)
                (.main (.setLd a chead fs), setFdate a f.1 m, w) := Goes.one rfl
            have hld : Goes (bootBody dirch conf files) (.main (.setLd a chead fs), setFdate a f.1 m, w)
                (.main (.bind chead fs), setLd a (setFdate a f.1 m), w) := Goes.one rfl
            exact ⟨hres, hfind.trans (hset.trans (hld.trans hgo))⟩
          · rw [if_pos hfd] at h
            simp only [Option.some.injEq, Prod.mk.injEq] at h
            obtain ⟨hres, hm⟩ := h
            subst hres
            subst hm
            refine ⟨Or.inr (by decide), Goes.one ?_⟩
            simp [Machine.worldBody, daemon, mainStep, outside, hmatch, hc, hfd, tcsOtherErr]

theorem cleanup_goes (a : Addr) (cycnext : Option Addr) (w : Option (List Entry)) (ss : List Cleanup) :
    ∀ (m m' : Mem), Cleanup.run a ss m = some m' →
      Goes (bootBody dirch conf files) (.main (.cleanup a ss cycnext), m, w) (.main (.sweep cycnext), m', w) := by
  induction ss with
  | nil =>
    intro m m' h
    cases h
    exact Goes.one rfl
  | cons s ss ih =>
    intro m m' h
    simp only [Cleanup.run] at h
    obtain ⟨m₁, hs, h⟩ := Option.bind_eq_some_iff.mp h
    have hstep : Goes (bootBody dirch conf files) (.main (.cleanup a (s :: ss) cycnext), m, w)
        (.main (.cleanup a ss cycnext), m₁, w) := by
      refine Goes.one ?_
      simp only [Machine.worldBody, daemon, mainStep, outside, hs]
    exact hstep.trans (ih m₁ m' h)

theorem sweepLoop_goes (w : Option (List Entry)) (n : Nat) : ∀ (p : Option Addr) (m m' : Mem) (res : Int),
    sweepLoop n p m = some (res, m') →
      Goes (bootBody dirch conf files) (.main (.sweep p), m, w)
        (.main (if res < 0 then .END else .timeInit), m', w) := by
  induction n with
  | zero =>
    intro p m m' res h
    cases p with
    | none =>
      cases h
      exact Goes.one rfl
    | some a => cases h
  | succ n ih =>
    intro p m m' res h
    cases p with
    | none =>
      cases h
      exact Goes.one rfl
    | some a =>
      simp only [sweepLoop] at h
      cases hc : m.node a with
      | none => simp [hc] at h
      | some c =>
        simp only [hc] at h
        by_cases hfd : c.fdate = none
        · rw [if_pos hfd] at h
          have hsweep : Goes (bootBody dirch conf files) (.main (.sweep (some a)), m, w)
              (.main (.unlink a c.next), m, w) := by
            refine Goes.one ?_
            simp [Machine.worldBody, daemon, mainStep, outside, hc, hfd]
          cases hf : freeSearch m a m.nodes.brk m.cychead none with
          | none => simp [freeCycdata, hf] at h
          | some o =>
            cases o with
            | none =>
              simp only [freeCycdata, hf] at h
              simp only [ne_eq, Int.reduceNeg, Int.reduceEq, not_false_eq_true, if_true, Option.some.injEq,
                Prod.mk.injEq] at h
              obtain ⟨hres, hm⟩ := h
              subst hres
              subst hm
              refine hsweep.trans (Goes.one ?_)
              simp [Machine.worldBody, daemon, mainStep, outside, hf, tcsOtherErr]
            | some BB =>
              simp only [freeCycdata, hf] at h
              cases hu : unlinkCycdata a BB m with
              | none => simp [hu] at h
              | some m₁ =>
                cases hr : Cleanup.run a freeCleanup m₁ with
                | none => simp [hu, hr] at h
                | some m₂ =>
                  simp only [hu, hr, Option.bind_some, Option.map_some, ne_eq, not_true_eq_false, if_false] at h
                  have hunlink : Goes (bootBody dirch conf files) (.main (.unlink a c.next), m, w)
                      (.main (.cleanup a freeCleanup c.next), m₁, w) := by
                    refine Goes.one ?_
                    simp only [Machine.worldBody, daemon, mainStep, outside, hf, hu]
                  exact hsweep.trans (hunlink.trans ((cleanup_goes conf files a c.next w freeCleanup m₁ m₂ hr).trans
                    (ih c.next m₂ m' res h)))
        · rw [if_neg hfd] at h
          have hsweep : Goes (bootBody dirch conf files) (.main (.sweep (some a)), m, w)
              (.main (.sweep c.next), m, w) := by
            refine Goes.one ?_
            simp [Machine.worldBody, daemon, mainStep, outside, hc, hfd]
          exact hsweep.trans (ih c.next m m' res h)

end Steps

/-- From opendir on, the statements of main come where the functions come. -/
theorem goes_of_boot (dirch : List Byte) (conf : Option (List Byte)) (files : Option (List (Addr × Filedate)))
    (dirdat : Option (List Entry)) (m m' : Mem) (res : Int) (h : boot dirch dirdat m = some (res, m')) :
    ∃ w, Goes (bootBody dirch conf files) (.main .opendir, m, dirdat)
      (.main (if res < 0 then .END else .timeInit), m', w) := by
  simp only [boot] at h
  cases dirdat with
  | none =>
    simp only [loadLib, tcsOtherErr] at h
    cases h
    exact ⟨none, Goes.one rfl⟩
  | some es =>
    have hopen : Goes (bootBody dirch conf files) (.main .opendir, m, some es)
        (.main (.readdir 0), m.emit [.opendir], some es) := Goes.one rfl
    cases hload : loadLib (some dirch) (some es) m with
    | none => simp [hload] at h
    | some q =>
      obtain ⟨r, m₁⟩ := q
      rw [hload] at h
      obtain ⟨w, hgo⟩ := loadLoop_goes conf files es 0 (m.emit [.opendir]) m₁ r hload
      by_cases hr : r < 0
      · simp only [hr, if_true] at h hgo
        cases h
        rw [if_pos hr]
        exact ⟨w, hopen.trans hgo⟩
      · simp only [hr, if_false, toSetCycdata] at h hgo
        have hto := hopen.trans hgo
        by_cases hempty : m₁.filehead = [] ∨ m₁.cychead = none
        · rw [if_pos hempty] at h
          cases h
          refine ⟨w, hto.trans (Goes.one ?_)⟩
          simp only [Machine.worldBody, daemon, mainStep, outside, if_pos hempty]
          rfl
        · rw [if_neg hempty] at h
          have hset : Goes (bootBody dirch conf files) (.main .toSet, m₁, w)
              (.main (.bind m₁.cychead m₁.filehead), m₁, w) := by
            refine Goes.one ?_
            simp only [Machine.worldBody, daemon, mainStep, outside, if_neg hempty]
          cases hb : bindLoop m₁.cychead m₁.filehead m₁ with
          | none => simp [hb] at h
          | some q =>
            obtain ⟨x, m₂⟩ := q
            rw [hb] at h
            obtain ⟨hx, hbind⟩ := bindLoop_goes conf files m₁.cychead w m₁.filehead m₁ m₂ x hb
            have hto := hto.trans (hset.trans hbind)
            cases hx with
            | inl hx =>
              subst hx
              simp only [ne_eq, not_true_eq_false, if_false, lt_irrefl] at h hto
              exact ⟨w, hto.trans (sweepLoop_goes conf files w m₂.nodes.brk m₁.cychead m₂ m' res h)⟩
            | inr hx =>
              have hne : x ≠ 0 := by omega
              simp only [hne, ne_eq, not_false_eq_true, if_true, hx] at h hto
              cases h
              rw [if_pos hx]
              exact ⟨w, hto⟩

/-- From opendir on, the statements of main do what loadLib and toSetCycdata compute, for every
memory, directory and allocator: they come to the same memory, at END when the result is negative
and at TimeInit otherwise, and they die where loadLib has no result. -/
theorem boot_goes (dirch : List Byte) (conf : Option (List Byte)) (files : Option (List (Addr × Filedate)))
    (dirdat : Option (List Entry)) (m : Mem) :
    (∀ res m', boot dirch dirdat m = some (res, m') →
      ∃ w, Goes (bootBody dirch conf files) (.main .opendir, m, dirdat)
        (.main (if res < 0 then .END else .timeInit), m', w)) ∧
    (loadLib (some dirch) dirdat m = none →
      ∃ r, Leaves (bootBody dirch conf files) (.main .opendir, m, dirdat) (false, r)) := by
  refine ⟨fun res m' h => goes_of_boot dirch conf files dirdat m m' res h, fun h => ?_⟩
  cases dirdat with
  | none => cases h
  | some es =>
    have hopen : Goes (bootBody dirch conf files) (.main .opendir, m, some es)
        (.main (.readdir 0), m.emit [.opendir], some es) := Goes.one rfl
    obtain ⟨r, hr⟩ := loadLoop_dies conf files es 0 (m.emit [.opendir]) h
    exact ⟨r, Leaves.of_goes hopen hr⟩

def oneSection : Mem := { Mem.init with filehead := [(0, ⟨[97], []⟩)] }

/-- The library "a" behind one without a section; a directory without it; and a path that leaves its
array. -/
theorem boot_goes_thrice :
    (∃ m w, Goes (bootBody [46] none none) (.main .opendir, oneSection, some [aLib 2, aLib 1]) (.main .timeInit, m, w) ∧
      m.ListIs [1]) ∧
    (∃ m w, Goes (bootBody [46] none none) (.main .opendir, oneSection, some [aLib 2]) (.main .END, m, w)) ∧
    ∃ r, Leaves (bootBody (List.replicate 56 100) none none) (.main .opendir, oneSection, some [aLib 1]) (false, r) := by
  have hstart : ∃ m, boot [46] (some [aLib 2, aLib 1]) oneSection = some (0, m) ∧ m.ListIs [1] :=
    ⟨_, rfl, rfl, none, rfl, rfl⟩
  have hfail : ∃ res m, boot [46] (some [aLib 2]) oneSection = some (res, m) ∧ res < 0 := ⟨_, _, rfl, by decide⟩
  obtain ⟨m, hm, hlist⟩ := hstart
  obtain ⟨res, n, hn, hneg⟩ := hfail
  refine ⟨?_, ?_, (boot_goes (List.replicate 56 100) none none (some [aLib 1]) oneSection).2 rfl⟩
  · obtain ⟨w, hw⟩ := (boot_goes [46] none none (some [aLib 2, aLib 1]) oneSection).1 0 m hm
    exact ⟨m, w, hw, hlist⟩
  · obtain ⟨w, hw⟩ := (boot_goes [46] none none (some [aLib 2]) oneSection).1 res n hn
    rw [if_pos hneg] at hw
    exact ⟨n, w, hw⟩

end TimeTask
