import Mathlib.Data.List.Chain
import TimeTask.RoundTrip

/-! The grammar that readFile accepts: well-formed packed records, their sections, and
what readFile makes of each entry. -/
namespace TimeTask
open Lib

/-- Packed records with separators between others only. -/
structure WellFormed (recs : List (List Byte)) : Prop where
  record : ∀ r ∈ recs, r = [32] ∨ RecordOk r
  first : recs.head? ≠ some [32]
  apart : recs.IsChain fun a b => a = [32] → b ≠ [32]

/-- A group of records: the first one names it. -/
def Group.ofRecords : List (List Byte) → Option Group
  | [] => none
  | name :: entries => some ⟨name, entries⟩

def sections (recs : List (List Byte)) : List Group := (recs.splitOn [32]).filterMap Group.ofRecords

/-- The first colon of the record stands between two texts. -/
def Splits (r : List Byte) : Prop := ∃ k v, r = k ++ 58 :: v ∧ 58 ∉ k ∧ k ≠ [] ∧ v ≠ []

def splitColon (r : List Byte) : List Byte × List Byte :=
  (r.takeWhile (· ≠ 58), (r.dropWhile (· ≠ 58)).drop 1)

/-- The section that a group spells, its name cut to the name field. -/
def Group.conf (g : Group) : Conf := ⟨g.name.take (nameCharNumMax - 1), g.entries.map splitColon⟩

theorem RecordOk.ne_separator {r : List Byte} (h : RecordOk r) : r ≠ [32] := by
  intro he
  subst he
  exact h.head rfl

theorem splitColon_append {k : List Byte} (hk : 58 ∉ k) (v : List Byte) :
    splitColon (k ++ 58 :: v) = (k, v) := by
  have hall : ∀ b ∈ k, decide (b ≠ 58) = true := by
    intro b hb
    have hne : b ≠ 58 := by
      intro he
      subst he
      exact hk hb
    simpa using hne
  rw [splitColon, List.takeWhile_append_of_pos hall, List.dropWhile_append_of_pos hall]
  simp

theorem Splits.join {r : List Byte} (h : Splits r) :
    (splitColon r).1 ++ 58 :: (splitColon r).2 = r ∧ (splitColon r).1 ≠ [] ∧ 58 ∉ (splitColon r).1 ∧
      (splitColon r).2 ≠ [] := by
  obtain ⟨k, v, rfl, hk, hkne, hvne⟩ := h
  rw [splitColon_append hk]
  exact ⟨rfl, hkne, hk, hvne⟩

theorem entryAt_splits {p : Nat} {r : List Byte} {o : Onedate} (h : entryAt p r = some o) : Splits r := by
  unfold entryAt at h
  cases hf : r.findIdx? (· == 58) with
  | none => simp [hf] at h
  | some tt =>
    simp only [hf] at h
    split_ifs at h with hend
    rw [List.findIdx?_eq_some_iff_getElem] at hf
    obtain ⟨hlt, hat, hbefore⟩ := hf
    have hcolon : r[tt] = 58 := by simpa using hat
    refine ⟨r.take tt, r.drop (tt + 1), ?_, fun hmem => ?_, fun hnil => ?_, fun hnil => ?_⟩
    · rw [← hcolon, List.getElem_cons_drop, List.take_append_drop]
    · obtain ⟨i, hi, hie⟩ := List.getElem_of_mem hmem
      have hit : i < tt := by
        rw [List.length_take] at hi
        omega
      rw [List.getElem_take] at hie
      exact absurd (by simpa using hie) (hbefore i hit)
    · have hl := congrArg List.length hnil
      rw [List.length_take, List.length_nil] at hl
      omega
    · have hl := congrArg List.length hnil
      rw [List.length_drop, List.length_nil] at hl
      omega

theorem entriesAt_splits {p : Nat} {a : Addr} {rs : List (List Byte)} {es : List (Addr × Onedate)}
    (h : entriesAt p a rs = some es) : ∀ r ∈ rs, Splits r := by
  induction rs generalizing p a es with
  | nil => simp
  | cons r rs ih =>
    simp only [entriesAt] at h
    cases he : entryAt p r with
    | none => simp [he] at h
    | some o =>
      rw [he] at h
      obtain ⟨es', hes', _⟩ := Option.map_eq_some_iff.mp h
      intro x hx
      cases List.mem_cons.mp hx with
      | inl hxr =>
        subst hxr
        exact entryAt_splits he
      | inr hxs => exact ih hes' x hxs

theorem groupsAt_splits {p : Nat} {a : Addr} {gs : List Group} {files : List (Addr × Filedate)}
    (h : groupsAt p a gs = some files) : ∀ g ∈ gs, ∀ r ∈ g.entries, Splits r := by
  induction gs generalizing p a files with
  | nil => simp
  | cons g gs ih =>
    simp only [groupsAt] at h
    cases hes : entriesAt (p + g.name.length + 1) (a + 1) g.entries with
    | none => simp [hes] at h
    | some es =>
      rw [hes] at h
      obtain ⟨fs, hfs, _⟩ := Option.map_eq_some_iff.mp h
      intro x hx
      cases List.mem_cons.mp hx with
      | inl hxg =>
        subst hxg
        exact entriesAt_splits hes
      | inr hxs => exact ih hfs x hxs

theorem joinGroups_push (trail : Bool) (name : List Byte) (g : Group) (gs : List Group) :
    name :: joinGroups trail (g :: gs) = joinGroups trail (⟨name, g.records⟩ :: gs) := by
  cases gs with
  | nil => simp [joinGroups, Group.records]
  | cons g' gs => simp [joinGroups, Group.records]

/-- Records behind a name, and records that start a section themselves. -/
theorem records_groups (recs : List (List Byte)) : (∀ r ∈ recs, r = [32] ∨ RecordOk r) →
    (recs.IsChain fun a b => a = [32] → b ≠ [32]) →
    (recs.head? ≠ some [32] → ∃ trail gs, GroupsOk gs ∧ recs = joinGroups trail gs) ∧
      ∀ name, RecordOk name → ∃ trail g gs, GroupsOk (g :: gs) ∧ name :: recs = joinGroups trail (g :: gs) := by
  induction recs with
  | nil =>
    intro _ _
    refine ⟨fun _ => ⟨false, [], by simp [GroupsOk], rfl⟩, fun name hname => ?_⟩
    exact ⟨false, ⟨name, []⟩, [], by simpa [GroupsOk, Group.records] using hname, rfl⟩
  | cons r recs ih =>
    intro hrec hapart
    have hi := ih (fun x hx => hrec x (List.mem_cons_of_mem r hx)) (List.isChain_cons.mp hapart).2
    refine ⟨fun hfirst => ?_, fun name hname => ?_⟩
    · have hr := (hrec r (by simp)).resolve_left fun he => hfirst (by simp [he])
      obtain ⟨trail, g, gs, hok, hrs⟩ := hi.2 r hr
      exact ⟨trail, g :: gs, hok, hrs⟩
    · cases hrec r (by simp) with
      | inl hsep =>
        have hhead : recs.head? ≠ some [32] := fun he =>
          (List.isChain_cons.mp hapart).1 [32] he hsep rfl
        obtain ⟨trail, gs, hok, hrs⟩ := hi.1 hhead
        have hnew : ∀ r ∈ (⟨name, []⟩ : Group).records, RecordOk r := by
          simpa [Group.records] using hname
        rw [hsep, hrs]
        cases gs with
        | nil => exact ⟨true, ⟨name, []⟩, [], by simpa [GroupsOk] using hnew, rfl⟩
        | cons g gs =>
          refine ⟨trail, ⟨name, []⟩, g :: gs, ?_, ?_⟩
          · intro x hx
            cases List.mem_cons.mp hx with
            | inl hxn =>
              rw [hxn]
              exact hnew
            | inr hxg => exact hok x hxg
          · rw [joinGroups_cons trail ⟨name, []⟩ (by simp)]
            rfl
      | inr hr =>
        obtain ⟨trail, g, gs, hok, hrs⟩ := hi.2 r hr
        rw [hrs, joinGroups_push]
        refine ⟨trail, ⟨name, g.records⟩, gs, ?_, rfl⟩
        intro x hx y hy
        cases List.mem_cons.mp hx with
        | inl hxn =>
          subst hxn
          cases List.mem_cons.mp hy with
          | inl hyn =>
            rw [hyn]
            exact hname
          | inr hyg => exact hok g (by simp) y hyg
        | inr hxg => exact hok x (List.mem_cons_of_mem g hxg) y hy

theorem WellFormed.groups {recs : List (List Byte)} (h : WellFormed recs) :
    ∃ trail gs, GroupsOk gs ∧ recs = joinGroups trail gs :=
  (records_groups recs h.record h.apart).1 h.first

theorem sections_cut (g : Group) (hg : [32] ∉ g.records) (rest : List (List Byte)) :
    sections (g.records ++ [32] :: rest) = g :: sections rest := by
  rw [sections, List.splitOn_append_cons_self_of_not_mem hg]
  rfl

theorem sections_join (trail : Bool) {gs : List Group} (h : GroupsOk gs) :
    sections (joinGroups trail gs) = gs := by
  induction gs with
  | nil => rfl
  | cons g gs ih =>
    have hg : [32] ∉ g.records := fun hmem => (h g (by simp) [32] hmem).ne_separator rfl
    cases gs with
    | nil =>
      cases trail with
      | false =>
        rw [joinGroups, if_neg (by simp), List.append_nil, sections, List.splitOn_eq_singleton hg]
        rfl
      | true => exact sections_cut g hg []
    | cons g' gs =>
      rw [joinGroups_cons trail g (by simp), sections_cut g hg, ih fun x hx => h x (List.mem_cons_of_mem g hx)]

theorem sections_ne_nil {recs : List (List Byte)} (hw : WellFormed recs) (hne : recs ≠ []) :
    sections recs ≠ [] := by
  obtain ⟨trail, gs, hok, hrecs⟩ := hw.groups
  rw [hrecs, sections_join trail hok]
  intro hnil
  rw [hrecs, hnil] at hne
  exact hne rfl

theorem groups_conf {buf z : List Byte} (trail : Bool) {gs : List Group}
    (hd : buf = encode (joinGroups trail gs) ++ z) (hs : ∀ g ∈ gs, ∀ r ∈ g.entries, Splits r) (a : Addr) :
    ∃ files, groupsAt 0 a gs = some files ∧ files.map (fun f => f.2.conf buf) = gs.map Group.conf := by
  have hentry : ∀ g ∈ gs, g.entries.map (fun r => (splitColon r).1 ++ 58 :: (splitColon r).2) = g.entries := by
    intro g hg
    rw [List.map_congr_left fun r hr => (hs g hg r hr).join.1]
    exact List.map_id _
  have hgs : (gs.map fun g => (⟨g.name, g.entries.map splitColon⟩ : Conf)).map Conf.group = gs := by
    rw [List.map_map, List.map_congr_left (g := id)]
    · exact List.map_id _
    · intro g hg
      have he := hentry g hg
      simp only [Function.comp_apply, Conf.group, List.map_map, id_eq]
      rw [show ((fun p : List Byte × List Byte => p.1 ++ 58 :: p.2) ∘ splitColon) =
        fun r => (splitColon r).1 ++ 58 :: (splitColon r).2 from rfl, he]
  obtain ⟨files, hfiles, hconfs⟩ := groups_read buf trail
    (gs.map fun g => (⟨g.name, g.entries.map splitColon⟩ : Conf)) 0 a z (by rw [hgs, hd, List.drop_zero]) (by
      intro c hc q hq
      obtain ⟨g, hg, rfl⟩ := List.mem_map.mp hc
      obtain ⟨r, hr, rfl⟩ := List.mem_map.mp hq
      obtain ⟨_, hk, hc, hv⟩ := (hs g hg r hr).join
      exact ⟨hk, hc, hv⟩)
  rw [hgs] at hfiles
  rw [List.map_map] at hconfs
  exact ⟨files, hfiles, hconfs⟩

theorem readFile_nil (z : List Byte) (brk : Addr) : ReadFile (some (0 :: z)) true brk ⟨0, some [], brk, []⟩ := by
  have hend : readBody (0 :: z) ⟨0, true, [], [], brk⟩ = .leave (some ⟨0, some [], brk, []⟩) := readBody_end rfl
  exact Leaves.now hend

theorem WellFormed.read {recs : List (List Byte)} (h : WellFormed recs) (z : List Byte) (brk : Addr) :
    ∃ q, ReadFile (some (encode recs ++ 0 :: z)) true brk q ∧
      ((q.ret = 0 ∧ (∀ g ∈ sections recs, ∀ r ∈ g.entries, Splits r) ∧ ∃ files, q.res = some files ∧
          files.map (fun f => f.2.conf (encode recs ++ 0 :: z)) = (sections recs).map Group.conf) ∨
        (q.ret = -2 ∧ q.res = none ∧ ¬ ∀ g ∈ sections recs, ∀ r ∈ g.entries, Splits r)) := by
  obtain ⟨trail, gs, hok, rfl⟩ := h.groups
  rw [sections_join trail hok]
  by_cases hne : gs = []
  · subst hne
    exact ⟨_, readFile_nil z brk, Or.inl ⟨rfl, by simp, [], rfl, rfl⟩⟩
  obtain ⟨q, hq, hres⟩ := readFile_groups trail gs hne rfl hok brk (z := z)
  refine ⟨q, hq, ?_⟩
  cases hgs : groupsAt 0 brk gs with
  | none =>
    rw [hgs] at hres
    refine Or.inr ⟨hres.1, hres.2, fun hall => ?_⟩
    obtain ⟨files, hfiles, _⟩ := groups_conf trail (z := 0 :: z) rfl hall brk
    rw [hgs] at hfiles
    cases hfiles
  | some files =>
    rw [hgs] at hres
    have hall := groupsAt_splits hgs
    obtain ⟨files', hfiles, hconf⟩ := groups_conf trail (z := 0 :: z) rfl hall brk
    rw [hgs, Option.some.injEq] at hfiles
    subst hfiles
    exact Or.inl ⟨hres.1, hall, files, hres.2, hconf⟩

/-- The grammar: readFile succeeds exactly when every entry splits at its first colon. Then
the sections are the groups in order, names cut and entries split; otherwise it returns -2
and stores nothing. -/
theorem readFile_grammar (recs : List (List Byte)) (h : WellFormed recs) (z : List Byte) (brk : Addr) :
    ∃ q, ReadFile (some (encode recs ++ 0 :: z)) true brk q ∧
      (q.ret = 0 ↔ ∀ g ∈ sections recs, ∀ r ∈ g.entries, Splits r) ∧
      (q.ret = 0 → ∃ files, q.res = some files ∧
        files.map (fun f => f.2.conf (encode recs ++ 0 :: z)) = (sections recs).map Group.conf) ∧
      (q.ret ≠ 0 → q.ret = -2 ∧ q.res = none) := by
  obtain ⟨q, hq, hres⟩ := h.read z brk
  refine ⟨q, hq, ?_⟩
  cases hres with
  | inl hgood =>
    obtain ⟨hret, hall, hfiles⟩ := hgood
    exact ⟨iff_of_true hret hall, fun _ => hfiles, fun hn => absurd hret hn⟩
  | inr hbad =>
    obtain ⟨hret, hres, hall⟩ := hbad
    have hne : q.ret ≠ 0 := by
      rw [hret]
      decide
    exact ⟨iff_of_false hne hall, fun h0 => absurd h0 hne, fun _ => ⟨hret, hres⟩⟩

def shortRecords : List (List Byte) := [[115], [107, 58, 118]]

theorem shortRecords_wellFormed : WellFormed shortRecords := by
  refine ⟨fun r hr => Or.inr ?_, by decide, by decide⟩
  cases List.mem_cons.mp hr with
  | inl hr =>
    subst hr
    exact ⟨by decide, by decide, by decide⟩
  | inr hr =>
    cases List.mem_singleton.mp hr
    exact ⟨by decide, by decide, by decide⟩

theorem readFile_grammar_short : ∃ q, ReadFile (some (encode shortRecords ++ 0 :: [])) true 0 q ∧
    (q.ret = 0 ↔ ∀ g ∈ sections shortRecords, ∀ r ∈ g.entries, Splits r) ∧
    (q.ret = 0 → ∃ files, q.res = some files ∧
      files.map (fun f => f.2.conf (encode shortRecords ++ 0 :: [])) =
        (sections shortRecords).map Group.conf) ∧
    (q.ret ≠ 0 → q.ret = -2 ∧ q.res = none) :=
  readFile_grammar shortRecords shortRecords_wellFormed [] 0

end TimeTask
