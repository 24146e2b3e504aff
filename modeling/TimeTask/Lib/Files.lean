import Mathlib.Tactic.Cases
import Mathlib.Tactic.SplitIfs

/-! Files by name. A file is the list of what was appended to it, and renaming
replaces an existing target. -/
namespace TimeTask.Lib

def Files (P C : Type*) := P → Option (List C)

namespace Files
variable {P C : Type*} [DecidableEq P]

/-- Open for appending: the file is made when it is missing. -/
def touch (fs : Files P C) (p : P) : Files P C := fun q => if q = p then some ((fs p).getD []) else fs q

def append (fs : Files P C) (p : P) (c : C) : Files P C :=
  fun q => if q = p then some ((fs p).getD [] ++ [c]) else fs q

def rename (fs : Files P C) (old new : P) : Files P C := fun q =>
  if q = new then
    match fs old with
    | none => fs new
    | some f => some f
  else if q = old then none
  else fs q

/-- How many of the pieces of the file `p` satisfy `keep`. -/
def count (fs : Files P C) (keep : C → Bool) (p : P) : Nat := ((fs p).getD []).countP keep

theorem count_touch (fs : Files P C) (keep : C → Bool) (p q : P) :
    (fs.touch p).count keep q = fs.count keep q := by
  by_cases hq : q = p
  · subst hq
    simp [count, touch]
  · simp [count, touch, hq]

theorem count_append (fs : Files P C) (keep : C → Bool) (p q : P) (c : C) :
    (fs.append p c).count keep q = fs.count keep q + if q = p ∧ keep c = true then 1 else 0 := by
  by_cases hq : q = p
  · subst hq
    by_cases hc : keep c = true <;> simp [count, append, hc]
  · simp [count, append, hq]

/-- The target takes over what the source held; what the target held is gone. -/
theorem count_rename (fs : Files P C) (keep : C → Bool) {old new : P} (hne : old ≠ new)
    (hold : fs old ≠ none) (q : P) : (fs.rename old new).count keep q =
      if q = new then fs.count keep old else if q = old then 0 else fs.count keep q := by
  obtain ⟨f, hf⟩ := Option.ne_none_iff_exists'.mp hold
  by_cases hq : q = new
  · subst hq
    simp [count, rename, hf]
  · by_cases ho : q = old
    · subst ho
      simp [count, rename, hq]
    · simp [count, rename, hq, ho]

/-- Moving a file makes no piece: what no file holds, none holds afterwards. -/
theorem count_rename_zero {fs : Files P C} {keep : C → Bool} (h : ∀ q, fs.count keep q = 0) {old new : P}
    (hne : old ≠ new) (q : P) : (fs.rename old new).count keep q = 0 := by
  by_cases hold : fs old = none
  · have hsame : (fs.rename old new) q = fs q := by
      by_cases hq : q = new
      · subst hq
        simp [rename, hold]
      · by_cases ho : q = old
        · subst ho
          simp [rename, hq, hold]
        · simp [rename, hq, ho]
    rw [count, hsame]
    exact h q
  · rw [count_rename fs keep hne hold]
    split_ifs
    · exact h old
    · rfl
    · exact h q

theorem rename_source (fs : Files P C) {old new : P} (hne : old ≠ new) : fs.rename old new old = none := by
  simp [rename, hne]

/-- The files of a list of names, read one after the other. -/
def read (fs : Files P C) (ps : List P) : List C := ps.flatMap fun p => (fs p).getD []

omit [DecidableEq P] in
theorem read_append (fs : Files P C) (ps qs : List P) : fs.read (ps ++ qs) = fs.read ps ++ fs.read qs :=
  List.flatMap_append

omit [DecidableEq P] in
theorem read_congr {fs gs : Files P C} {ps : List P} (h : ∀ p ∈ ps, gs p = fs p) :
    gs.read ps = fs.read ps := by
  induction ps with
  | nil => rfl
  | cons p ps ih =>
    have hi := ih fun q hq => h q (List.mem_cons_of_mem p hq)
    rw [read, List.flatMap_cons, h p (by simp)]
    rw [read] at hi
    rw [hi]
    rfl

theorem read_append_last (fs : Files P C) {ps : List P} {p : P} (hp : p ∉ ps) (c : C) :
    (fs.append p c).read (ps ++ [p]) = fs.read (ps ++ [p]) ++ [c] := by
  have hsame : (fs.append p c).read ps = fs.read ps := by
    refine read_congr fun q hq => ?_
    have hqp : q ≠ p := fun he => hp (he ▸ hq)
    simp [append, hqp]
  rw [read_append, read_append, hsame]
  simp [read, append]

/-- Renaming the last file and opening it again loses nothing, when the target is none of the others. -/
theorem read_rotate (fs : Files P C) {ps : List P} {p new : P} (hp : p ∉ ps) (hn : new ∉ ps)
    (hne : p ≠ new) (hfs : fs p ≠ none) :
    ((fs.rename p new).touch p).read (ps ++ [new] ++ [p]) = fs.read (ps ++ [p]) := by
  obtain ⟨f, hf⟩ := Option.ne_none_iff_exists'.mp hfs
  have hsame : ((fs.rename p new).touch p).read ps = fs.read ps := by
    refine read_congr fun q hq => ?_
    have hqp : q ≠ p := fun he => hp (he ▸ hq)
    have hqn : q ≠ new := fun he => hn (he ▸ hq)
    simp [touch, rename, hqp, hqn]
  rw [read_append, read_append, read_append, hsame, List.append_assoc]
  congr 1
  simp [read, touch, rename, hne, hne.symm, hf]

end Files

end TimeTask.Lib
