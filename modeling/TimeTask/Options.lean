import TimeTask.Lib.Loop
import TimeTask.Types

/-! The options of the command line: main reads them in pairs of an option and its value. -/
namespace TimeTask
open Lib

def ascii (s : String) : List Byte := s.toByteArray.data.toList

/-- `strncmp(arg,opt,2)==0` -/
def isOpt (opt : String) (arg : List Byte) : Bool := arg.take 2 == (ascii opt).take 2

/-- The locals of main that the loop over argv changes. A NULL pointer is `none`. -/
structure ArgState where
  res : Nat
  confwhere : Option (List Byte)
  libwhere : Option (List Byte)

/-- How the parsing ends: the text printed in front of `return -1`, or the two paths. -/
inductive Parsed where
  | rejected (text : List Byte)
  | accepted (confwhere libwhere : Option (List Byte))
deriving DecidableEq, Repr

def noAvail (arg : List Byte) : List Byte := arg ++ ascii " is no avail\n"

/-- One pass of the loop. The result is `none` for a read past argv[argc] and for a comparison
of NULL. -/
def argBody (argc : Nat) (argv : List (Option (List Byte))) (s : ArgState) :
    Pass ArgState (Option Parsed) :=
  if s.res < argc then
    match argv[s.res]? with
    | some (some arg) =>
      if isOpt "-c" arg then
        match argv[s.res + 1]? with
        | some value => .again ⟨s.res + 2, value, s.libwhere⟩
        | none => .leave none
      else if isOpt "-l" arg then
        match argv[s.res + 1]? with
        | some value => .again ⟨s.res + 2, s.confwhere, value⟩
        | none => .leave none
      else .leave (some (.rejected (noAvail arg)))
    | _ => .leave none
  else .leave (some (.accepted s.confwhere s.libwhere))

/-- The parsing in main ends with `q` and stays inside argv. -/
def ParseArgs (argc : Nat) (argv : List (Option (List Byte))) (q : Parsed) : Prop :=
  if argc > 2 then Leaves (argBody argc argv) ⟨1, none, none⟩ (some q) else q = .accepted none none

/-- argv as the system makes it: the strings, then the NULL at argv[argc]. -/
def argvOf (av : List (List Byte)) : List (Option (List Byte)) := av.map some ++ [none]

/-- What the loop makes of the arguments from `res` on. -/
def scanArgs : List (List Byte) → Option (List Byte) → Option (List Byte) → Parsed
  | [], c, l => .accepted c l
  | arg :: rest, c, l =>
    if isOpt "-c" arg then scanArgs rest.tail rest.head? l
    else if isOpt "-l" arg then scanArgs rest.tail c rest.head?
    else .rejected (noAvail arg)
termination_by args => args.length
decreasing_by all_goals simp only [List.length_tail, List.length_cons]; omega

/-- The arguments in option position: every second one. -/
def optionPlaces : List (List Byte) → List (List Byte)
  | [] => []
  | arg :: rest => arg :: optionPlaces rest.tail
termination_by args => args.length
decreasing_by simp only [List.length_tail, List.length_cons]; omega

def isOption (arg : List Byte) : Bool := isOpt "-c" arg || isOpt "-l" arg

/-- The arguments are these pairs of an option and its value. -/
def Pairs (ps : List (List Byte × List Byte)) (args : List (List Byte)) : Prop :=
  (args = ps.flatMap fun p => [p.1, p.2]) ∧ ∀ p ∈ ps, isOption p.1 = true

/-- The value of the last pair with this option. -/
def lastValue (opt : String) (ps : List (List Byte × List Byte)) : Option (List Byte) :=
  ((ps.filter fun p => isOpt opt p.1).getLast?).map Prod.snd

/-- The parsing follows the usage `[-c file] [-l dir]`. -/
structure ParsesUsage (av : List (List Byte)) : Prop where
  inside : ∃ q, ParseArgs av.length (argvOf av) q
  accepts : (∃ c l, ParseArgs av.length (argvOf av) (.accepted c l)) ↔ ∃ ps, Pairs ps av.tail
  values : ∀ ps c l, Pairs ps av.tail → ParseArgs av.length (argvOf av) (.accepted c l) →
    c = lastValue "-c" ps ∧ l = lastValue "-l" ps

theorem argvOf_at {av : List (List Byte)} {i : Nat} (h : i ≤ av.length) :
    (argvOf av)[i]? = some av[i]? := by
  rw [argvOf]
  by_cases hi : i < av.length
  · rw [List.getElem?_append_left (by rwa [List.length_map]), List.getElem?_map]
    simp [hi]
  · have he : i = av.length := Nat.le_antisymm h (Nat.not_lt.mp hi)
    subst he
    simp

theorem argBody_arg {av rest : List (List Byte)} {res : Nat} {arg : List Byte}
    (h : av.drop res = arg :: rest) (c l : Option (List Byte)) :
    argBody av.length (argvOf av) ⟨res, c, l⟩ =
      if isOpt "-c" arg then .again ⟨res + 2, rest.head?, l⟩
      else if isOpt "-l" arg then .again ⟨res + 2, c, rest.head?⟩
      else .leave (some (.rejected (noAvail arg))) := by
  have hlt : res < av.length := by
    have hlen := congrArg List.length h
    rw [List.length_drop, List.length_cons] at hlen
    omega
  have harg : av[res]? = some arg := by rw [← List.head?_drop, h, List.head?_cons]
  have hvalue : av[res + 1]? = rest.head? := by
    rw [← List.head?_drop, ← List.drop_drop, h, List.drop_one, List.tail_cons]
  rw [argBody, if_pos hlt, argvOf_at (Nat.le_of_lt hlt), harg]
  simp only [argvOf_at hlt, hvalue]

theorem drop_two {av rest : List (List Byte)} {res : Nat} {arg : List Byte}
    (h : av.drop res = arg :: rest) : av.drop (res + 2) = rest.tail := by
  rw [← List.drop_drop, h, List.drop_succ_cons, List.drop_one]

theorem argBody_scan (av args : List (List Byte)) (c l : Option (List Byte)) :
    ∀ res, av.drop res = args →
      Leaves (argBody av.length (argvOf av)) ⟨res, c, l⟩ (some (scanArgs args c l)) := by
  induction args, c, l using scanArgs.induct with
  | case1 c l =>
    intro res h
    rw [scanArgs]
    exact Leaves.now (if_neg (Nat.not_lt.mpr (List.drop_eq_nil_iff.mp h)))
  | case2 arg rest c l hc ih =>
    intro res h
    have hpass := argBody_arg h c l
    rw [if_pos hc] at hpass
    rw [scanArgs, if_pos hc]
    exact Leaves.step hpass (ih (res + 2) (drop_two h))
  | case3 arg rest c l hc hl ih =>
    intro res h
    have hpass := argBody_arg h c l
    rw [if_neg hc, if_pos hl] at hpass
    rw [scanArgs, if_neg hc, if_pos hl]
    exact Leaves.step hpass (ih (res + 2) (drop_two h))
  | case4 arg rest c l hc hl =>
    intro res h
    have hpass := argBody_arg h c l
    rw [if_neg hc, if_neg hl] at hpass
    rw [scanArgs, if_neg hc, if_neg hl]
    exact Leaves.now hpass

/-- More than one argument is scanned, a lone one is not even looked at. -/
theorem parseArgs_iff (av : List (List Byte)) (q : Parsed) : ParseArgs av.length (argvOf av) q ↔
    q = if av.tail.length = 1 then .accepted none none else scanArgs av.tail none none := by
  have htail : av.tail.length = av.length - 1 := List.length_tail
  rw [ParseArgs]
  by_cases hargc : av.length > 2
  · have hscan := argBody_scan av av.tail none none 1 List.drop_one
    rw [if_pos hargc, if_neg (by omega)]
    constructor
    · intro hq
      exact Option.some.inj (hq.unique hscan)
    · intro hq
      rw [hq]
      exact hscan
  · rw [if_neg hargc]
    by_cases hone : av.tail.length = 1
    · rw [if_pos hone]
    · have hnil : av.tail = [] := List.length_eq_zero_iff.mp (by omega)
      rw [if_neg hone, hnil, scanArgs]

theorem scanArgs_ends (args : List (List Byte)) (c l : Option (List Byte)) :
    match (optionPlaces args).find? fun arg => !isOption arg with
    | some arg => scanArgs args c l = .rejected (noAvail arg)
    | none => ∃ c' l', scanArgs args c l = .accepted c' l' := by
  induction args, c, l using scanArgs.induct with
  | case1 c l =>
    rw [optionPlaces, scanArgs]
    exact ⟨c, l, rfl⟩
  | case2 arg rest c l hc ih =>
    rw [optionPlaces, List.find?_cons_of_neg (by simp [isOption, hc]), scanArgs, if_pos hc]
    exact ih
  | case3 arg rest c l hc hl ih =>
    rw [optionPlaces, List.find?_cons_of_neg (by simp [isOption, hl]), scanArgs, if_neg hc, if_pos hl]
    exact ih
  | case4 arg rest c l hc hl =>
    rw [optionPlaces, List.find?_cons_of_pos (by simp [isOption, hc, hl]), scanArgs, if_neg hc, if_neg hl]

theorem scanArgs_accepts (args : List (List Byte)) (c l : Option (List Byte)) :
    (∃ c' l', scanArgs args c l = .accepted c' l') ↔ ∀ arg ∈ optionPlaces args, isOption arg = true := by
  have hends := scanArgs_ends args c l
  cases hfind : (optionPlaces args).find? fun arg => !isOption arg with
  | none =>
    rw [hfind] at hends
    refine iff_of_true hends fun arg harg => ?_
    simpa using List.find?_eq_none.mp hfind arg harg
  | some arg =>
    rw [hfind] at hends
    refine iff_of_false (fun hacc => ?_) fun hall => ?_
    · obtain ⟨c', l', hacc⟩ := hacc
      rw [hends] at hacc
      cases hacc
    · have hopt := hall arg (List.mem_of_find?_eq_some hfind)
      have hnot := List.find?_some hfind
      rw [hopt] at hnot
      cases hnot

theorem pairs_iff (args : List (List Byte)) : (∃ ps, Pairs ps args) ↔
    args.length % 2 = 0 ∧ ∀ arg ∈ optionPlaces args, isOption arg = true := by
  induction args using optionPlaces.induct with
  | case1 => exact iff_of_true ⟨[], rfl, by simp⟩ ⟨rfl, by simp [optionPlaces]⟩
  | case2 arg rest ih =>
    rw [optionPlaces, List.forall_mem_cons]
    cases rest with
    | nil =>
      refine iff_of_false (fun h => ?_) fun h => absurd h.1 (by simp)
      obtain ⟨ps, hps, -⟩ := h
      cases ps with
      | nil => simp at hps
      | cons p ps => simp at hps
    | cons value rest =>
      rw [List.tail_cons] at ih ⊢
      have hlen : (arg :: value :: rest).length % 2 = rest.length % 2 := by
        rw [List.length_cons, List.length_cons, Nat.add_assoc, Nat.add_mod_right]
      rw [hlen]
      constructor
      · intro h
        obtain ⟨ps, hps, hopt⟩ := h
        cases ps with
        | nil => simp at hps
        | cons p ps =>
          simp only [List.flatMap_cons, List.cons_append, List.nil_append, List.cons.injEq] at hps
          obtain ⟨harg, -, hrest⟩ := hps
          rw [List.forall_mem_cons] at hopt
          obtain ⟨heven, hall⟩ := ih.mp ⟨ps, hrest, hopt.2⟩
          exact ⟨heven, harg ▸ hopt.1, hall⟩
      · intro h
        obtain ⟨heven, hopt, hall⟩ := h
        obtain ⟨ps, hps, hrest⟩ := ih.mpr ⟨heven, hall⟩
        refine ⟨(arg, value) :: ps, ?_, List.forall_mem_cons.mpr ⟨hopt, hrest⟩⟩
        rw [List.flatMap_cons, ← hps]
        rfl

theorem lastValue_cons (opt : String) (p : List Byte × List Byte) (ps : List (List Byte × List Byte)) :
    lastValue opt (p :: ps) = (lastValue opt ps).or (if isOpt opt p.1 then some p.2 else none) := by
  simp only [lastValue, List.filter_cons]
  cases isOpt opt p.1 with
  | true =>
    rw [if_pos rfl, if_pos rfl, List.getLast?_cons]
    cases (ps.filter fun p => isOpt opt p.1).getLast? <;> rfl
  | false => rw [if_neg Bool.false_ne_true, if_neg Bool.false_ne_true, Option.or_none]

theorem isOpt_excl {arg : List Byte} (h : isOpt "-c" arg = true) : isOpt "-l" arg = false := by
  rw [isOpt, beq_iff_eq] at h
  rw [isOpt, h]
  rfl

/-- On pairs the scan ends with the value of the last pair for each option. -/
theorem scanArgs_pairs {ps : List (List Byte × List Byte)} (hopt : ∀ p ∈ ps, isOption p.1 = true)
    (c l : Option (List Byte)) : scanArgs (ps.flatMap fun p => [p.1, p.2]) c l =
      .accepted ((lastValue "-c" ps).or c) ((lastValue "-l" ps).or l) := by
  induction ps generalizing c l with
  | nil =>
    rw [List.flatMap_nil, scanArgs]
    rfl
  | cons p ps ih =>
    rw [List.forall_mem_cons] at hopt
    have hrest := ih hopt.2
    rw [lastValue_cons, lastValue_cons, Option.or_assoc, Option.or_assoc, List.flatMap_cons, List.cons_append,
      scanArgs, List.cons_append, List.nil_append, List.tail_cons, List.head?_cons]
    cases hc : isOpt "-c" p.1 with
    | true =>
      rw [isOpt_excl hc, if_pos rfl, hrest]
      rfl
    | false =>
      have hl : isOpt "-l" p.1 = true := by
        have h := hopt.1
        rwa [isOption, hc, Bool.false_or] at h
      rw [if_neg Bool.false_ne_true, hl, if_pos rfl, hrest]
      rfl

/-- The parsing accepts its usage and nothing else exactly when the arguments are even in number,
or at least three with something else than an option in option position. -/
theorem parseArgs_usage_iff (av : List (List Byte)) : ParsesUsage av ↔
    av.tail.length % 2 = 0 ∨
      (av.tail.length ≠ 1 ∧ ∃ arg ∈ optionPlaces av.tail, isOption arg = false) := by
  have hparse := parseArgs_iff av
  by_cases hone : av.tail.length = 1
  · have hacc : ParseArgs av.length (argvOf av) (.accepted none none) := by
      rw [hparse, if_pos hone]
    refine iff_of_false (fun h => ?_) fun h => ?_
    · obtain ⟨ps, hps⟩ := h.accepts.mp ⟨none, none, hacc⟩
      have heven := ((pairs_iff av.tail).mp ⟨ps, hps⟩).1
      omega
    · cases h with
      | inl heven => omega
      | inr h => exact h.1 hone
  · have hscan : ∀ q, ParseArgs av.length (argvOf av) q ↔ q = scanArgs av.tail none none := by
      intro q
      rw [hparse, if_neg hone]
    have haccepts : (∃ c l, ParseArgs av.length (argvOf av) (.accepted c l)) ↔
        ∀ arg ∈ optionPlaces av.tail, isOption arg = true := by
      rw [← scanArgs_accepts av.tail none none]
      simp only [hscan, eq_comm]
    constructor
    · intro h
      have hiff := h.accepts
      rw [haccepts, pairs_iff] at hiff
      by_cases hall : ∀ arg ∈ optionPlaces av.tail, isOption arg = true
      · exact Or.inl (hiff.mp hall).1
      · refine Or.inr ⟨hone, ?_⟩
        simpa using hall
    · intro h
      refine ⟨⟨_, (hscan _).mpr rfl⟩, ?_, fun ps c l hps hq => ?_⟩
      · rw [haccepts, pairs_iff]
        refine ⟨fun hall => ⟨?_, hall⟩, fun hp => hp.2⟩
        cases h with
        | inl heven => exact heven
        | inr h =>
          obtain ⟨-, arg, harg, hnot⟩ := h
          rw [hall arg harg] at hnot
          cases hnot
      · have hq' := (hscan _).mp hq
        rw [hps.1, scanArgs_pairs hps.2, Option.or_none, Option.or_none, Parsed.accepted.injEq] at hq'
        exact hq'

/-- A lone unknown argument and an option without a value both start the daemon. -/
theorem parseArgs_accepts_more : ¬ ParsesUsage [ascii "./Time", ascii "-x"] ∧
    ¬ ParsesUsage [ascii "./Time", ascii "-c", ascii "a.conf", ascii "-l"] := by
  refine ⟨fun h => ?_, fun h => ?_⟩
  · obtain ⟨ps, hps⟩ := h.accepts.mp ⟨none, none, rfl⟩
    have heven := ((pairs_iff _).mp ⟨ps, hps⟩).1
    exact absurd heven (by decide)
  · have hacc : ParseArgs 4 (argvOf [ascii "./Time", ascii "-c", ascii "a.conf", ascii "-l"])
        (.accepted (some (ascii "a.conf")) none) := ⟨3, rfl⟩
    obtain ⟨ps, hps⟩ := h.accepts.mp ⟨_, _, hacc⟩
    have heven := ((pairs_iff _).mp ⟨ps, hps⟩).1
    exact absurd heven (by decide)

end TimeTask
